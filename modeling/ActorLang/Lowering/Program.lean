import ActorLang.Lowering.Control

/-!
# Lowering programs

The statement of a program, built phrase by phrase.
-/

namespace ActorLang

open Kernel (Ident Operand BinaryPrim Stmt)

def BinaryOp.prim? : BinaryOp → Option BinaryPrim
  | add => some .add
  | subtract => some .sub
  | multiply => some .mult
  | divide => some .div
  | modulo => some .mod
  | equals => some .eq
  | notEquals => some .ne
  | greaterThan => some .gt
  | lessThan => some .lt
  | greaterOrEqual => some .ge
  | lessOrEqual => some .le
  | and => none
  | or => none

def Expr.declares (e : Expr) : List Ident :=
  match e.form with
  | .var decls => decls.map fun (.mk name _) => name
  | .func (some name) _ _ => [name]
  | .proc (some name) _ _ => [name]
  | .actor name _ _ => [name]
  | _ => []

def declaredNames (body : List Expr) : List Ident := (body.flatMap Expr.declares).eraseDups

def ActorItem.sentences (items : List ActorItem) : List Expr := items.filterMap fun
  | .sentence e => some e
  | .handler _ _ => none

namespace Lowering

def block (body : List Expr) (sentences : List Phrase) : Block := ⟨declaredNames body, sentences⟩

mutual

def ofExpr : Expr → Phrase
  | .mk span form => ofForm span form

def ofForm (span : Span) : Form → Phrase
  | .lit value => atom (.lit value)
  | .ident name => atom (.ident name)
  | .record label fields => { into := record (ofOption label) (ofFields fields) }
  | .tuple label values => { into := tuple (ofOption label) (ofList values) }
  | .binary op left right =>
    { into := match op.prim? with
        | some op => binary op (ofExpr left) (ofExpr right)
        | none => shortCircuit (op = .and) (ofExpr left) (ofExpr right) }
  | .unary .not operand => { into := not (ofExpr operand) }
  | .unary .negate operand => { into := negate (ofExpr operand) }
  | .content cell => { into := content (ofExpr cell) }
  | .select rec feature => { into := select (ofExpr rec) (ofExpr feature) }
  | .apply proc args => { into := apply (ofExpr proc) (ofList args) }
  | .selectApply rec name args =>
    let (base, path) := alongPath rec [.lit (.str name)]
    { into := selectApply base path (ofList args) }
  | .var decls => { into := fun _ => return .ofList (← initialValues (ofDecls decls)) }
  | .unify left right => { into := fun _ => unify (ofExpr left) (ofExpr right) }
  | .assign cell value => { into := fun _ => assign (ofExpr cell) (ofExpr value) }
  | .func name params body => { into := procedure name params (block body (ofList body)) true }
  | .proc name params body => { into := procedure name params (block body (ofList body)) false }
  | .block body => { into := (block body (ofList body)).into }
  | .ifElse branches otherwise =>
    { into := conditional (ofBranches branches) (ofOtherwise otherwise) }
  | .cases arg clauses otherwise =>
    { into := cases (ofExpr arg) (ofClauses clauses) (ofOtherwise otherwise) }
  | .whileLoop cond body => { into := fun _ => whileLoop (ofExpr cond) (block body (ofList body)) }
  | .forLoop name iter body =>
    { into := fun _ => forLoop name (ofExpr iter) (block body (ofList body)) }
  | .attempt body catches final =>
    { into := attempt (block body (ofList body)) (ofClauses catches) (ofOtherwise final) }
  | .throw value => { into := fun _ => throwValue (ofExpr value) }
  | .ret value => { into := fun _ => returnValue (ofOption value) span }
  | .brk => { into := fun _ => leaveLoop true span }
  | .cont => { into := fun _ => leaveLoop false span }
  | .skip => { into := fun _ => return .skip }
  | .actor name params items =>
    { into := actor name params ⟨declaredNames (ActorItem.sentences items), ofSentences items⟩
        (ofHandlers .ask items) (ofHandlers .tell items) }

/-- The record at the start of a path of literal features, and the path. -/
def alongPath : Expr → List Operand → Phrase × List Operand
  | .mk span form, path =>
    let whole := ofForm span form
    match form with
    | .select rec (.mk _ (.lit value)) => alongPath rec (.lit value :: path)
    | _ => (whole, path)

def ofList : List Expr → List Phrase
  | [] => []
  | e :: rest => ofExpr e :: ofList rest

def ofOption : Option Expr → Option Phrase
  | none => none
  | some e => some (ofExpr e)

def ofOtherwise : Option (List Expr) → Option Block
  | none => none
  | some body => some (block body (ofList body))

def ofFields : List (Expr × Expr) → List (Phrase × Phrase)
  | [] => []
  | (feature, value) :: rest => (ofExpr feature, ofExpr value) :: ofFields rest

def ofDecls : List Decl → List (Ident × Phrase)
  | [] => []
  | .mk name (some value) :: rest => (name, ofExpr value) :: ofDecls rest
  | .mk _ none :: rest => ofDecls rest

def ofBranches : List Branch → List (Phrase × Block)
  | [] => []
  | .mk cond body :: rest => (ofExpr cond, block body (ofList body)) :: ofBranches rest

def ofClauses : List Clause → List Alternative
  | [] => []
  | .mk pattern guard body :: rest =>
    ⟨pattern, ofOption guard, block body (ofList body)⟩ :: ofClauses rest

def ofSentences : List ActorItem → List Phrase
  | [] => []
  | .sentence e :: rest => ofExpr e :: ofSentences rest
  | .handler _ _ :: rest => ofSentences rest

def ofHandlers (kind : HandlerKind) : List ActorItem → List Alternative
  | [] => []
  | .sentence _ :: rest => ofHandlers kind rest
  | .handler k (.mk pattern guard body) :: rest =>
    if k = kind then ⟨pattern, ofOption guard, block body (ofList body)⟩ :: ofHandlers kind rest
    else ofHandlers kind rest

end

end Lowering

open Lowering in
/-- The statement of a program, whose value goes to the target. -/
def Program.lower (p : Program) (target : Target) : Except LowerError Stmt :=
  ((block p.body (ofList p.body)).into target).run' {}

end ActorLang
