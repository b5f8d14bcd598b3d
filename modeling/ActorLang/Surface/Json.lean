import ActorLang.Surface.Basic
import ActorLang.Json.Number

/-!
# Programs as JSON

A form is an object with one field, named for the form, or just the name when the form has no parts.
Spans are not written, and what is read back has no spans.
-/

namespace ActorLang

/-! ### Writing -/

namespace Json

def tagged (name : String) (part : Json) : Json := object [(name, part)]

def node (name : String) (parts : List (String × Json)) : Json := tagged name (object parts)

/-- Floats of 64 bits are positional from `10 ^ -5` up to `10 ^ 16`. -/
def doubleNotation : FloatNotation := ⟨-5, 16, true, .even⟩

/-- Floats of 32 bits are positional from `10 ^ -6` up to `10 ^ 13`. -/
def singleNotation : FloatNotation := ⟨-6, 13, true, .even⟩

/-- A float; those that are not finite have no number. -/
def ofFloat {f : BinaryFormat} (layout : FloatNotation) (x : Binary f) : Json :=
  match layout.renderFinite? x with
  | some text => number text
  | none => null

end Json

def Literal.toJson : Literal → Json
  | bool b => .tagged "Bool" (.bool b)
  | int32 n => .tagged "Int32" (.int n.toInt)
  | int64 n => .tagged "Int64" (.int n.toInt)
  | flt32 x => .tagged "Flt32" (.ofFloat Json.singleNotation x)
  | flt64 x => .tagged "Flt64" (.ofFloat Json.doubleNotation x)
  | dec128 x => .tagged "Dec128" (.string x.render)
  | char c => .tagged "Char" (.string (String.singleton c))
  | str s => .tagged "Str" (.string s)
  | null => .string "Null"
  | eof => .string "Eof"

def BinaryOp.name : BinaryOp → String
  | add => "Add"
  | subtract => "Subtract"
  | multiply => "Multiply"
  | divide => "Divide"
  | modulo => "Modulo"
  | equals => "Equals"
  | notEquals => "NotEquals"
  | greaterThan => "GreaterThan"
  | lessThan => "LessThan"
  | greaterOrEqual => "GreaterOrEqual"
  | lessOrEqual => "LessOrEqual"
  | and => "And"
  | or => "Or"

def UnaryOp.name : UnaryOp → String
  | not => "Not"
  | negate => "Negate"

def HandlerKind.name : HandlerKind → String
  | ask => "Ask"
  | tell => "Tell"

mutual

def Pattern.toJson : Pattern → Json
  | .mk _ form => form.toJson

def PatternForm.toJson : PatternForm → Json
  | .lit l => .tagged "Lit" l.toJson
  | .ident name => .tagged "Ident" (.string name)
  | .escaped name => .tagged "Escaped" (.string name)
  | .wildcard => .string "Wildcard"
  | .record label fields isPartial => .node "Rec"
      [("label", optionPatternJson label), ("fields", .array (fieldPatternsJson fields)),
       ("partial", .bool isPartial)]
  | .tuple label values isPartial => .node "Tuple"
      [("label", optionPatternJson label), ("values", .array (patternsJson values)),
       ("partial", .bool isPartial)]

def optionPatternJson : Option Pattern → Json
  | none => .null
  | some p => p.toJson

def patternsJson : List Pattern → List Json
  | [] => []
  | p :: rest => p.toJson :: patternsJson rest

def fieldPatternsJson : List (Pattern × Pattern) → List Json
  | [] => []
  | (f, p) :: rest => .array [f.toJson, p.toJson] :: fieldPatternsJson rest

end

def namesJson (names : List String) : Json := .array (names.map .string)

mutual

def Expr.toJson : Expr → Json
  | .mk _ form => form.toJson

def Form.toJson : Form → Json
  | .lit l => .tagged "Lit" l.toJson
  | .ident name => .tagged "Ident" (.string name)
  | .record label fields => .node "Rec"
      [("label", optionExprJson label), ("fields", .array (fieldsJson fields))]
  | .tuple label values => .node "Tuple"
      [("label", optionExprJson label), ("values", .array (exprsJson values))]
  | .binary op left right => .node "BinOp"
      [("op", .string op.name), ("left", left.toJson), ("right", right.toJson)]
  | .unary op operand => .node "UnaryOp"
      [("op", .string op.name), ("operand", operand.toJson)]
  | .content cell => .tagged "CellGet" cell.toJson
  | .select record feature => .node "Select"
      [("rec", record.toJson), ("feature", feature.toJson)]
  | .apply proc args => .node "Apply"
      [("proc", proc.toJson), ("args", .array (exprsJson args))]
  | .selectApply record name args => .node "SelectApply"
      [("rec", record.toJson), ("name", .string name), ("args", .array (exprsJson args))]
  | .var decls => .tagged "Var" (.array (declsJson decls))
  | .unify left right => .node "Unify"
      [("left", left.toJson), ("right", right.toJson)]
  | .assign cell value => .node "SetCell"
      [("cell", cell.toJson), ("value", value.toJson)]
  | .func name params body => .node "Func"
      [("name", .optString name), ("params", namesJson params), ("body", .array (exprsJson body))]
  | .proc name params body => .node "Proc"
      [("name", .optString name), ("params", namesJson params), ("body", .array (exprsJson body))]
  | .block body => .tagged "Begin" (.array (exprsJson body))
  | .ifElse branches otherwise => .node "If"
      [("branches", .array (branchesJson branches)), ("otherwise", optionExprsJson otherwise)]
  | .cases arg clauses otherwise => .node "Case"
      [("arg", arg.toJson), ("clauses", .array (clausesJson clauses)),
       ("otherwise", optionExprsJson otherwise)]
  | .whileLoop cond body => .node "While"
      [("cond", cond.toJson), ("body", .array (exprsJson body))]
  | .forLoop name iter body => .node "For"
      [("name", .string name), ("iter", iter.toJson), ("body", .array (exprsJson body))]
  | .attempt body catches final => .node "Try"
      [("body", .array (exprsJson body)), ("catches", .array (clausesJson catches)),
       ("finally", optionExprsJson final)]
  | .throw value => .tagged "Throw" value.toJson
  | .ret value => .tagged "Return" (optionExprJson value)
  | .brk => .string "Break"
  | .cont => .string "Continue"
  | .skip => .string "Skip"
  | .actor name params items => .node "Actor"
      [("name", .string name), ("params", namesJson params), ("body", .array (itemsJson items))]

def optionExprJson : Option Expr → Json
  | none => .null
  | some e => e.toJson

def exprsJson : List Expr → List Json
  | [] => []
  | e :: rest => e.toJson :: exprsJson rest

def optionExprsJson : Option (List Expr) → Json
  | none => .null
  | some es => .array (exprsJson es)

def fieldsJson : List (Expr × Expr) → List Json
  | [] => []
  | (f, e) :: rest => .array [f.toJson, e.toJson] :: fieldsJson rest

def Decl.toJson : Decl → Json
  | .mk name value => .object [("name", .string name), ("value", optionExprJson value)]

def declsJson : List Decl → List Json
  | [] => []
  | d :: rest => d.toJson :: declsJson rest

def branchesJson : List Branch → List Json
  | [] => []
  | .mk cond body :: rest => .array [cond.toJson, .array (exprsJson body)] :: branchesJson rest

def Clause.toJson : Clause → Json
  | .mk pattern guard body => .object
      [("pat", pattern.toJson), ("guard", optionExprJson guard), ("body", .array (exprsJson body))]

def clausesJson : List Clause → List Json
  | [] => []
  | c :: rest => c.toJson :: clausesJson rest

def itemsJson : List ActorItem → List Json
  | [] => []
  | .sentence e :: rest => .tagged "Sntc" e.toJson :: itemsJson rest
  | .handler kind clause :: rest => .node "Handler"
      [("kind", .string kind.name), ("clause", clause.toJson)] :: itemsJson rest

end

def Program.toJson (p : Program) : Json := .object [("body", .array (exprsJson p.body))]

/-! ### Reading -/

namespace Json

mutual

/-- The depth of the containers of a value. -/
def height : Json → Nat
  | array elements => heightElements elements + 1
  | object fields => heightFields fields + 1
  | null => 0
  | bool _ => 0
  | number _ => 0
  | string _ => 0

def heightElements : List Json → Nat
  | [] => 0
  | j :: rest => max (height j) (heightElements rest)

def heightFields : List (String × Json) → Nat
  | [] => 0
  | (_, j) :: rest => max (height j) (heightFields rest)

end

/-- The name of a form and, unless only the name is written, its part. -/
def variant? : Json → Option (String × Option Json)
  | string name => some (name, none)
  | object [(name, part)] => some (name, some part)
  | _ => none

def parts? (names : List String) : Json → Option (List (Option Json))
  | object fields => some (names.map fun name => fields.lookup name)
  | _ => none

/-- The parts of a node that is no form: by name, or all of them in order without names. -/
def partsInOrder? (names : List String) : Json → Option (List (Option Json))
  | array elements =>
    if elements.length = names.length then some (elements.map some) else none
  | j => parts? names j

def text? : Json → Option String
  | string s => some s
  | _ => none

def bool? : Json → Option Bool
  | bool b => some b
  | _ => none

def listOf? {α : Type} (item : Json → Option α) : Json → Option (List α)
  | array elements => elements.mapM item
  | _ => none

def pairOf? {α β : Type} (first : Json → Option α) (second : Json → Option β) :
    Json → Option (α × β)
  | array [a, b] => do return (← first a, ← second b)
  | _ => none

def maybe? {α : Type} (item : Json → Option α) : Option Json → Option (Option α)
  | none => some none
  | some null => some none
  | some j => (item j).map some

def required? {α : Type} (item : Json → Option α) (part : Option Json) : Option α :=
  part.bind item

def unit? : Option Json → Option Unit
  | none => some ()
  | some null => some ()
  | some _ => none

def integer? : Json → Option Int
  | number literal => match numeral? literal with
    | some (.integer n) => some n
    | _ => none
  | _ => none

/-- The float nearest to a number, by way of the 64-bit one if it is not an integer. -/
def float? {f : BinaryFormat} : Json → Option (Binary f)
  | number literal => match numeral? literal with
    | some (.integer n) => some (.ofInt n)
    | some (.real x) => some x.convert
    | none => none
  | _ => none

/-- Floats written positionally, whatever their exponent. -/
def plainNotation : FloatNotation := ⟨-400, 400, false, .up⟩

/-- The positional text of a float, without a fraction if it is an integer. -/
def plainText (x : Binary64) : String :=
  let cs := (plainNotation.render x).toList
  if cs.drop (cs.length - 2) = ['.', '0'] then String.ofList (cs.take (cs.length - 2))
  else String.ofList cs

def decimal? : Json → Option Decimal
  | string s => (Decimal.parse? s).or (Decimal.parseScientific? s)
  | number literal => match numeral? literal with
    | some (.integer n) => Decimal.parse? (toString n)
    | some (.real x) => Decimal.parse? (plainText x)
    | none => none
  | _ => none

def constant? {α : Type} (all : List α) (name : α → String) (j : Json) : Option α := do
  let (tag, part) ← j.variant?
  unit? part
  all.find? fun a => name a == tag

end Json

open Json

def Literal.ofJson? (j : Json) : Option Literal := do
  let (tag, part) ← j.variant?
  match tag with
  | "Bool" => bool <$> required? bool? part
  | "Int32" =>
    let n ← required? integer? part
    if fitsInt32 n then some (int32 (Int32.ofInt n)) else none
  | "Int64" =>
    let n ← required? integer? part
    if fitsInt64 n then some (int64 (Int64.ofInt n)) else none
  | "Flt32" => flt32 <$> required? float? part
  | "Flt64" => flt64 <$> required? float? part
  | "Dec128" => dec128 <$> required? decimal? part
  | "Char" =>
    match (← required? text? part).toList with
    | [c] => some (char c)
    | _ => none
  | "Str" => str <$> required? text? part
  | "Null" => unit? part |>.map fun _ => null
  | "Eof" => unit? part |>.map fun _ => eof
  | _ => none

def BinaryOp.ofJson? : Json → Option BinaryOp :=
  constant? [.add, .subtract, .multiply, .divide, .modulo, .equals, .notEquals, .greaterThan,
    .lessThan, .greaterOrEqual, .lessOrEqual, .and, .or] BinaryOp.name

def UnaryOp.ofJson? : Json → Option UnaryOp := constant? [.not, .negate] UnaryOp.name

def HandlerKind.ofJson? : Json → Option HandlerKind := constant? [.ask, .tell] HandlerKind.name

/-- A pattern, given the reader for the patterns inside it. -/
def PatternForm.ofJson? (pattern : Json → Option Pattern) (j : Json) : Option PatternForm := do
  let (tag, part) ← j.variant?
  let field (name : String) : Option Json := part.bind (·.field? name)
  match tag with
  | "Lit" => lit <$> required? Literal.ofJson? part
  | "Ident" => ident <$> required? text? part
  | "Escaped" => escaped <$> required? text? part
  | "Wildcard" => unit? part |>.map fun _ => wildcard
  | "Rec" =>
    record <$> maybe? pattern (field "label")
      <*> required? (listOf? (pairOf? pattern pattern)) (field "fields")
      <*> required? bool? (field "partial")
  | "Tuple" =>
    tuple <$> maybe? pattern (field "label") <*> required? (listOf? pattern) (field "values")
      <*> required? bool? (field "partial")
  | _ => none

def Pattern.ofJsonAt? : (depth : Nat) → Json → Option Pattern
  | 0, _ => none
  | depth + 1, j => (PatternForm.ofJson? (Pattern.ofJsonAt? depth) j).map (.mk .unknown)

def Pattern.ofJson? (j : Json) : Option Pattern := Pattern.ofJsonAt? (j.height + 1) j

def Decl.ofJson? (expr : Json → Option Expr) (j : Json) : Option Decl := do
  match ← partsInOrder? ["name", "value"] j with
  | [name, value] =>
    .mk <$> required? text? name <*> maybe? expr value
  | _ => none

def Clause.ofJson? (expr : Json → Option Expr) (j : Json) : Option Clause := do
  match ← partsInOrder? ["pat", "guard", "body"] j with
  | [pattern, guard, body] =>
    .mk <$> required? Pattern.ofJson? pattern <*> maybe? expr guard
      <*> required? (listOf? expr) body
  | _ => none

def Branch.ofJson? (expr : Json → Option Expr) (j : Json) : Option Branch := do
  let (cond, body) ← pairOf? expr (listOf? expr) j
  return .mk cond body

def ActorItem.ofJson? (expr : Json → Option Expr) (j : Json) : Option ActorItem := do
  let (tag, part) ← j.variant?
  let field (name : String) : Option Json := part.bind (·.field? name)
  match tag with
  | "Sntc" => sentence <$> required? expr part
  | "Handler" =>
    handler <$> required? HandlerKind.ofJson? (field "kind")
      <*> required? (Clause.ofJson? expr) (field "clause")
  | _ => none

/-- A sentence or expression, given the reader for the expressions inside it. -/
def Form.ofJson? (expr : Json → Option Expr) (j : Json) : Option Form := do
  let (tag, part) ← j.variant?
  let field (name : String) : Option Json := part.bind (·.field? name)
  let exprs := listOf? expr
  match tag with
  | "Lit" => lit <$> required? Literal.ofJson? part
  | "Ident" => ident <$> required? text? part
  | "Rec" =>
    record <$> maybe? expr (field "label")
      <*> required? (listOf? (pairOf? expr expr)) (field "fields")
  | "Tuple" => tuple <$> maybe? expr (field "label") <*> required? exprs (field "values")
  | "BinOp" =>
    binary <$> required? BinaryOp.ofJson? (field "op") <*> required? expr (field "left")
      <*> required? expr (field "right")
  | "UnaryOp" =>
    unary <$> required? UnaryOp.ofJson? (field "op") <*> required? expr (field "operand")
  | "CellGet" => content <$> required? expr part
  | "Select" => select <$> required? expr (field "rec") <*> required? expr (field "feature")
  | "Apply" => apply <$> required? expr (field "proc") <*> required? exprs (field "args")
  | "SelectApply" =>
    selectApply <$> required? expr (field "rec") <*> required? text? (field "name")
      <*> required? exprs (field "args")
  | "Var" => var <$> required? (listOf? (Decl.ofJson? expr)) part
  | "Unify" => unify <$> required? expr (field "left") <*> required? expr (field "right")
  | "SetCell" => assign <$> required? expr (field "cell") <*> required? expr (field "value")
  | "Func" =>
    func <$> maybe? text? (field "name") <*> required? (listOf? text?) (field "params")
      <*> required? exprs (field "body")
  | "Proc" =>
    proc <$> maybe? text? (field "name") <*> required? (listOf? text?) (field "params")
      <*> required? exprs (field "body")
  | "Begin" => block <$> required? exprs part
  | "If" =>
    ifElse <$> required? (listOf? (Branch.ofJson? expr)) (field "branches")
      <*> maybe? exprs (field "otherwise")
  | "Case" =>
    cases <$> required? expr (field "arg")
      <*> required? (listOf? (Clause.ofJson? expr)) (field "clauses")
      <*> maybe? exprs (field "otherwise")
  | "While" => whileLoop <$> required? expr (field "cond") <*> required? exprs (field "body")
  | "For" =>
    forLoop <$> required? text? (field "name") <*> required? expr (field "iter")
      <*> required? exprs (field "body")
  | "Try" =>
    attempt <$> required? exprs (field "body")
      <*> required? (listOf? (Clause.ofJson? expr)) (field "catches")
      <*> maybe? exprs (field "finally")
  | "Throw" => throw <$> required? expr part
  | "Return" => ret <$> (part.bind fun j => maybe? expr (some j))
  | "Break" => unit? part |>.map fun _ => brk
  | "Continue" => unit? part |>.map fun _ => cont
  | "Skip" => unit? part |>.map fun _ => skip
  | "Actor" =>
    actor <$> required? text? (field "name") <*> required? (listOf? text?) (field "params")
      <*> required? (listOf? (ActorItem.ofJson? expr)) (field "body")
  | _ => none

def Expr.ofJsonAt? : (depth : Nat) → Json → Option Expr
  | 0, _ => none
  | depth + 1, j => (Form.ofJson? (Expr.ofJsonAt? depth) j).map (.mk .unknown)

def Program.ofJson? (j : Json) : Option Program := do
  match ← partsInOrder? ["body"] j with
  | [body] => Program.mk <$> required? (listOf? (Expr.ofJsonAt? (j.height + 1))) body
  | _ => none

end ActorLang
