import ActorLang.Lowering.Pattern

/-!
# Lowering constructs

Each construct of the language, given the lowerings of its parts.  Loops and later alternatives
become procedures, and jumps become throws to labels.
-/

namespace ActorLang.Lowering

open Kernel (Ident Operand BinaryPrim Stmt resultIdent messageIdent)

def atom (arg : Operand) : Phrase where
  atom? := some arg
  into
    | .ident t => return .bind arg t
    | .discard => return .skip

def deliver (setup : Setup) (target : Target) (stmt : Ident → Stmt) : Lower Stmt := do
  let (t, more) ← targetIdent target
  return (setup ++ more).finish (stmt t)

/-! ### Sequences -/

/-- Sentences and the names that they declare. -/
structure Block where
  declared : List Ident
  sentences : List Phrase

/-- Only the last sentence delivers its value. -/
def inOrder : List Phrase → Target → Lower (List Stmt)
  | [], _ => return []
  | [p], target => return [← p.into target]
  | p :: rest, target => do
    let stmt ← p.into .discard
    return stmt :: (← inOrder rest target)

def Block.into (b : Block) (target : Target) : Lower Stmt :=
  return .within b.declared (.ofList (← inOrder b.sentences target))

def initialValues : List (Ident × Phrase) → Lower (List Stmt)
  | [] => return []
  | (name, p) :: rest => do
    let stmt ← p.into (.ident name)
    return stmt :: (← initialValues rest)

/-! ### Expressions -/

def record (label : Option Phrase) (fields : List (Phrase × Phrase)) (target : Target) :
    Lower Stmt := do
  let (label, setup) ← optionalOperand label
  let (args, more) ← operands (fields.flatMap fun (f, v) => [f, v])
  deliver (setup ++ more) target (.createRecord label (pairs args))
where
  /-- Neighbours taken together. -/
  pairs : List Operand → List (Operand × Operand)
    | f :: v :: rest => (f, v) :: pairs rest
    | _ => []

def tuple (label : Option Phrase) (values : List Phrase) (target : Target) : Lower Stmt := do
  let (label, setup) ← optionalOperand label
  let (args, more) ← operands values
  deliver (setup ++ more) target (.createTuple label args)

def binary (op : BinaryPrim) (left right : Phrase) (target : Target) : Lower Stmt := do
  let (left, setup) ← left.operand
  let (right, more) ← right.operand
  deliver (setup ++ more) target (.binary op left right)

/-- The right operand is evaluated only if the left one is `evaluates`. -/
def shortCircuit (evaluates : Bool) (left right : Phrase) (target : Target) : Lower Stmt := do
  let (cond, setup) ← left.operand
  let more ← right.into target
  let short : Stmt := match target with
    | .ident t => .bind (.lit (.bool (!evaluates))) t
    | .discard => .skip
  return setup.finish (if evaluates then .ifElse cond more short else .ifElse cond short more)

def not (p : Phrase) (target : Target) : Lower Stmt := do
  let (cond, setup) ← p.operand
  return setup.finish <| match target with
    | .ident t => .ifElse cond (.bind (.lit (.bool false)) t) (.bind (.lit (.bool true)) t)
    | .discard => .skip

def negate (p : Phrase) (target : Target) : Lower Stmt := do
  let (arg, setup) ← p.operand
  deliver setup target (.negate arg)

def content (cell : Phrase) (target : Target) : Lower Stmt := do
  let (cell, setup) ← cell.operand
  deliver setup target (.get cell)

def select (record feature : Phrase) (target : Target) : Lower Stmt := do
  let (record, setup) ← record.operand
  let (feature, more) ← feature.operand
  deliver (setup ++ more) target (.select record feature)

/-- The target is the last argument. -/
def apply (proc : Phrase) (args : List Phrase) (target : Target) : Lower Stmt := do
  let (proc, setup) ← proc.operand
  let (args, more) ← operands args
  return (setup ++ more).finish (.apply proc (args ++ targetArgs target))

/-- The target is the last argument. -/
def selectApply (record : Phrase) (path : List Operand) (args : List Phrase) (target : Target) :
    Lower Stmt := do
  let (record, setup) ← record.operand
  let (args, more) ← operands args
  return (setup ++ more).finish (.selectApply record path (args ++ targetArgs target))

/-- An identifier on either side is the target of the other side. -/
def unify (left right : Phrase) : Lower Stmt :=
  match left.atom?, right.atom? with
  | some (.ident name), _ => right.into (.ident name)
  | _, some (.ident name) => left.into (.ident name)
  | _, _ => do
    let temp ← freshTemp
    let left ← left.into (.ident temp)
    let right ← right.into (.ident temp)
    return .within [temp] (.ofList [left, right])

def assign (cell value : Phrase) : Lower Stmt := do
  let (cell, setup) ← cell.operand
  let (value, more) ← value.operand
  return (setup ++ more).finish (.set cell value)

def throwValue (p : Phrase) : Lower Stmt := do
  let (value, setup) ← p.operand
  return setup.finish (.throw value)

/-! ### Functions -/

/-- Adds what the returns of a body need: the catch of their label and the alias of a hidden
result. -/
def closeFunc (body : Stmt) : JumpFrame → Stmt
  | .func label _ standIn =>
    let body := match label with
      | some label => .ofList [body, .jumpCatch label]
      | none => body
    match standIn with
    | some standIn => .within [standIn] (.ofList [.bind (.ident resultIdent) standIn, body])
    | none => body
  | _ => body

/-- A statement that binds a name, which is then also the value. -/
def named (name : Ident) (create : Stmt) : Target → Stmt
  | .ident t => .ofList [create, .bind (.ident name) t]
  | .discard => create

/-- A function has a result parameter, a procedure has none. -/
def procedure (name : Option Ident) (params : List Ident) (body : Block) (hasResult : Bool)
    (target : Target) : Lower Stmt := do
  let formals := if hasResult then params ++ [resultIdent] else params
  let inner : Target := if hasResult then .ident resultIdent else .discard
  let (body, frame) ← inFrame (.func none hasResult none) (body.into inner)
  let body := closeFunc body frame
  match name with
  | some name => return named name (.createProc formals body name) target
  | none => deliver {} target (.createProc formals body)

/-! ### Alternatives -/

def conditional : List (Phrase × Block) → Option Block → Target → Lower Stmt
  | [], some b, target => b.into target
  | [], none, _ => return .skip
  | (cond, body) :: rest, otherwise, target => do
    let (cond, setup) ← cond.operand
    let yes ← body.into target
    let no ← conditional rest otherwise target
    return setup.finish (.ifElse cond yes no)

/-- A pattern, a guard and what is done if the pattern matches and the guard holds. -/
structure Alternative where
  pattern : Pattern
  guard : Option Phrase
  body : Block

/-- What is done if no alternative is taken. -/
inductive Fallback where
  | skip
  | block (b : Block)
  /-- Throws the caught value again. -/
  | rethrow (caught : Ident)
  /-- Throws an error of this name about the message. -/
  | notHandled (name : String)

def Fallback.isSkip : Fallback → Bool
  | skip => true
  | _ => false

def Fallback.into : Fallback → Target → Lower Stmt
  | skip, _ => return .skip
  | block b, target => b.into target
  | rethrow caught, _ => return .throw (.ident caught)
  | notHandled name, _ => do
    let error ← freshTemp
    let create := .createRecord (some (.lit (.str "error")))
      [(.lit (.str "message"), .ident messageIdent), (.lit (.str "name"), .lit (.str name))] error
    return .within [error] (.ofList [create, .throw (.ident error)])

/-- Tries alternatives in order.  One that can fail in more than one place, or that has others
after it, calls a procedure for what is left. -/
def alternatives (arg : Operand) (fallback : Fallback) :
    List Alternative → Target → Lower Stmt
  | [], target => fallback.into target
  | alt :: rest, target => do
    let (root, children) ← alt.pattern.lower
    let failsOnce := children.isEmpty && alt.guard.isNone
    let nothingLeft := rest.isEmpty && fallback.isSkip
    let next ← if rest.isEmpty && (failsOnce || nothingLeft) then pure none
      else some <$> freshTemp
    let (guard, setup) ← optionalOperand alt.guard
    let body ← alt.body.into target
    let failed ← match next with
      | some next => pure (.apply (.ident next) (targetArgs target))
      | none => if nothingLeft then pure .skip else fallback.into target
    let guarded := match guard with
      | some guard => setup.finish (.ifElse guard body failed)
      | none => body
    let yes := children.foldr
      (fun child yes => .cases (.ident child.arg) (.record child.pattern) yes failed) guarded
    let case : Stmt := .cases arg root yes failed
    match next, target with
    | none, _ => return case
    | some next, .ident _ =>
      let (no, _) ← inFrame .shadow (alternatives arg fallback rest (.ident resultIdent))
      return .within [next] (.ofList [.createProc [resultIdent] no next, case])
    | some next, .discard =>
      let no ← alternatives arg fallback rest .discard
      return .within [next] (.ofList [.createProc [] no next, case])

def cases (arg : Phrase) (clauses : List Alternative) (otherwise : Option Block)
    (target : Target) : Lower Stmt := do
  let (arg, setup) ← arg.operand
  let fallback : Fallback := match otherwise with
    | some b => .block b
    | none => .skip
  return setup.finish (← alternatives arg fallback clauses target)

/-! ### Loops -/

def loopLabels : JumpFrame → Option Nat × Option Nat
  | .loop onBreak onContinue => (onBreak, onContinue)
  | _ => (none, none)

def catchLabel (label : Option Nat) : List Stmt := label.toList.map .jumpCatch

/-- The body of a loop, which then calls `again`, and the label of its breaks. -/
def iteration (body : Block) (again : Ident) : Lower (Stmt × Option Nat) := do
  let (body, frame) ← inFrame (.loop none none) (body.into .discard)
  let (onBreak, onContinue) := loopLabels frame
  return (.ofList (body :: catchLabel onContinue ++ [.call again]), onBreak)

def whileLoop (cond : Phrase) (body : Block) : Lower Stmt := do
  let guard := "$guard"
  let again := "$while"
  let (cond, _) ← inFrame .shadow (cond.into (.ident resultIdent))
  let test ← freshTemp
  let (step, onBreak) ← iteration body again
  let round := .within [test]
    (.ofList [.apply (.ident guard) [.ident test], .ifElse (.ident test) step .skip])
  return .within [guard, again] (.ofList
    [.createProc [resultIdent] cond guard,
     .createProc [] (.ofList (round :: catchLabel onBreak)) again,
     .call again])

/-- The iterator gives a value at each call and `eof` at the end. -/
def forLoop (name : Ident) (iter : Phrase) (body : Block) : Lower Stmt := do
  let iterator := "$iter"
  let again := "$for"
  let iter ← iter.into (.ident iterator)
  let (step, onBreak) ← iteration body again
  let round := .within [name]
    (.ofList [.apply (.ident iterator) [.ident name], .cases (.ident name) (.lit .eof) .skip step])
  return .within [iterator, again] (.ofList
    [iter,
     .createProc [] (.ofList (round :: catchLabel onBreak)) again,
     .call again])

/-! ### Attempts -/

/-- The body with its handler.  A throw that leaves the handler runs the final part first. -/
def guarded (body : Block) (catches : List Alternative) (final : Option Ident) (target : Target) :
    Lower Stmt := do
  let body ← body.into target
  let caught ← freshTemp
  let handler ← match final with
    | none => alternatives (.ident caught) (.rethrow caught) catches target
    | some final =>
      if catches.isEmpty then pure (.ofList [.call final, .throw (.ident caught)])
      else do
        let handler ← alternatives (.ident caught) (.rethrow caught) catches target
        let escaped ← freshTemp
        pure (.attempt handler escaped (.ofList [.call final, .throw (.ident escaped)]))
  return .attempt body caught handler

def attempt (body : Block) (catches : List Alternative) (final : Option Block) (target : Target) :
    Lower Stmt :=
  match final with
  | none => guarded body catches none target
  | some block => do
    let final ← freshTemp
    let (stmt, _) ← inFrame (.final final) (guarded body catches (some final) target)
    let block ← block.into .discard
    return .within [final] (.ofList [.createProc [] block final, stmt, .call final])

/-! ### Jumps -/

/-- Delivers the value, runs the final parts on the way and jumps to the end of the function. -/
def returnValue (value : Option Phrase) (span : Span) : Lower Stmt := do
  let some point := returnPoint? (← get).frames | fail .returnOutsideFunc span
  let delivered ← match value with
    | none => pure []
    | some p => do
      if !point.hasResult then fail .returnValueInProc span
      let result ← if point.shadowed then resultAlias point.depth else pure resultIdent
      pure [← p.into (.ident result)]
  let label ← returnLabel point.depth
  return .ofList (delivered ++ point.finals.map .call ++ [.jumpThrow label])

/-- Runs the final parts on the way and jumps to the end of the loop or of the iteration. -/
def leaveLoop (isBreak : Bool) (span : Span) : Lower Stmt := do
  let some (finals, depth) := loopPoint? (← get).frames
    | fail (if isBreak then .breakOutsideLoop else .continueOutsideLoop) span
  let label ← loopLabel isBreak depth
  return .ofList (finals.map .call ++ [.jumpThrow label])

/-! ### Actors -/

/-- The body of the procedure that handles messages of one kind. -/
def handler (clauses : List Alternative) (kind : HandlerKind) : Lower Stmt := do
  let hasResult := kind = .ask
  let target : Target := if hasResult then .ident resultIdent else .discard
  let fallback : Fallback :=
    .notHandled (if hasResult then "AskNotHandledError" else "TellNotHandledError")
  let (body, frame) ← inFrame (.func none hasResult none)
    (alternatives (.ident messageIdent) fallback clauses target)
  return closeFunc body frame

/-- An actor is a procedure that runs its sentences and results in its two handlers. -/
def actor (name : Ident) (params : List Ident) (start : Block) (asks tells : List Alternative)
    (target : Target) : Lower Stmt := do
  let ask ← freshTemp
  let tell ← freshTemp
  let (init, _) ← inFrame .barrier (inOrder start.sentences .discard)
  let askBody ← handler asks .ask
  let tellBody ← handler tells .tell
  let body := .within (start.declared ++ [ask, tell]) (.ofList
    [.ofList init,
     .createProc [messageIdent, resultIdent] askBody ask,
     .createProc [messageIdent] tellBody tell,
     .createTuple (some (.lit (.str "handlers"))) [.ident ask, .ident tell] resultIdent])
  return named name (.createActor (params ++ [resultIdent]) body name) target

end ActorLang.Lowering
