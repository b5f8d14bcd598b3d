import ActorLang.Kernel.Free
import ActorLang.Text.Span

/-!
# Lowering: names, targets and jumps

A phrase is lowered against a target, the identifier that receives its value.  Operands that are
neither identifiers nor literals get fresh temporaries, and `return`, `break` and `continue` become
jumps to labels of the constructs around them, which are kept as a stack of frames.
-/

namespace ActorLang

open Kernel (Ident Operand Stmt)

inductive LowerCause where
  | patternFeature
  | patternLabel
  | breakOutsideLoop
  | continueOutsideLoop
  | returnOutsideFunc
  | returnValueInProc
  deriving DecidableEq

structure LowerError where
  cause : LowerCause
  span : Span

namespace LowerCause

def code : LowerCause → String
  | patternFeature => "TQ-G001"
  | patternLabel => "TQ-G002"
  | breakOutsideLoop => "TQ-G003"
  | continueOutsideLoop => "TQ-G004"
  | returnOutsideFunc => "TQ-G005"
  | returnValueInProc => "TQ-G006"

def message : LowerCause → String
  | patternFeature => "A pattern feature must be a literal or an escaped identifier"
  | patternLabel => "A pattern label must be a literal or an escaped identifier"
  | breakOutsideLoop => "'break' used outside of a loop"
  | continueOutsideLoop => "'continue' used outside of a loop"
  | returnOutsideFunc => "'return' used outside of a function"
  | returnValueInProc => "a proc cannot return a value"

end LowerCause

/-- Where the value of a phrase goes. -/
inductive Target where
  | ident (name : Ident)
  | discard
  deriving DecidableEq

namespace Lowering

/-- A construct around the phrase being lowered, as far as jumps are concerned. -/
inductive JumpFrame where
  /-- A function or handler: the label and alias of its result once they are in use, and
  whether it has a result. -/
  | func (label : Option Nat) (hasResult : Bool) (standIn : Option Ident)
  /-- The start of an actor, which no jump leaves. -/
  | barrier
  /-- A loop: its labels once they are in use. -/
  | loop (onBreak onContinue : Option Nat)
  /-- An attempt whose final part is this procedure. -/
  | final (proc : Ident)
  /-- A procedure whose own result hides that of the function around it. -/
  | shadow

/-- The next number for generated names, and the frames around the phrase, innermost first. -/
structure Context where
  next : Nat := 0
  frames : List JumpFrame := []

end Lowering

open Lowering in
/-- Computations that generate names, use frames and may fail. -/
abbrev Lower (α : Type) := StateT Context (Except LowerError) α

namespace Lowering

def fail {α : Type} (cause : LowerCause) (span : Span) : Lower α := throw ⟨cause, span⟩

def freshNumber : Lower Nat :=
  modifyGet fun c => (c.next, { c with next := c.next + 1 })

def freshTemp : Lower Ident := return "$v" ++ toString (← freshNumber)

/-- A fresh identifier for a part of a pattern that has no name. -/
def freshAnonymous : Lower Ident := return "$a" ++ toString (← freshNumber)

/-! ### Frames -/

/-- Lowers something inside a frame, which is returned as it is at the end. -/
def inFrame {α : Type} (frame : JumpFrame) (x : Lower α) : Lower (α × JumpFrame) := do
  modify fun c => { c with frames := frame :: c.frames }
  let a ← x
  let c ← get
  set { c with frames := c.frames.tail }
  return (a, c.frames.headD frame)

/-- Where a `return` goes: the final parts on the way, innermost first, whether a result hides that
of the function, the depth of the frame of the function, and whether it has a result. -/
structure ReturnPoint where
  finals : List Ident := []
  shadowed : Bool := false
  depth : Nat := 0
  hasResult : Bool

def returnPoint? : List JumpFrame → Option ReturnPoint
  | [] => none
  | .barrier :: _ => none
  | .func _ hasResult _ :: _ => some { hasResult }
  | .final proc :: rest => (returnPoint? rest).map fun p =>
    { p with finals := proc :: p.finals, depth := p.depth + 1 }
  | .shadow :: rest => (returnPoint? rest).map fun p =>
    { p with shadowed := true, depth := p.depth + 1 }
  | .loop .. :: rest => (returnPoint? rest).map fun p => { p with depth := p.depth + 1 }

/-- Where a `break` or `continue` goes: the final parts on the way, innermost first, and the
depth of the frame of the loop. -/
def loopPoint? : List JumpFrame → Option (List Ident × Nat)
  | [] => none
  | .barrier :: _ => none
  | .func .. :: _ => none
  | .loop .. :: _ => some ([], 0)
  | .final proc :: rest => (loopPoint? rest).map fun (finals, depth) => (proc :: finals, depth + 1)
  | .shadow :: rest => (loopPoint? rest).map fun (finals, depth) => (finals, depth + 1)

/-- The label of the function frame at a depth, made on its first use. -/
def returnLabel (depth : Nat) : Lower Nat := do
  match (← get).frames[depth]? with
  | some (.func (some label) _ _) => return label
  | some (.func none hasResult standIn) =>
    let label ← freshNumber
    modify fun c => { c with frames := c.frames.set depth (.func (some label) hasResult standIn) }
    return label
  | _ => freshNumber

/-- The alias of the result of the function frame at a depth, made on its first use. -/
def resultAlias (depth : Nat) : Lower Ident := do
  match (← get).frames[depth]? with
  | some (.func _ _ (some standIn)) => return standIn
  | some (.func label hasResult none) =>
    let standIn ← freshTemp
    modify fun c => { c with frames := c.frames.set depth (.func label hasResult (some standIn)) }
    return standIn
  | _ => return Kernel.resultIdent

/-- The label of the loop frame at a depth, made on its first use. -/
def loopLabel (isBreak : Bool) (depth : Nat) : Lower Nat := do
  match (← get).frames[depth]? with
  | some (.loop onBreak onContinue) =>
    match if isBreak then onBreak else onContinue with
    | some label => return label
    | none =>
      let label ← freshNumber
      let frame : JumpFrame :=
        if isBreak then .loop (some label) onContinue else .loop onBreak (some label)
      modify fun c => { c with frames := c.frames.set depth frame }
      return label
  | _ => freshNumber

/-! ### Operands -/

/-- Temporaries and the statements that fill them. -/
structure Setup where
  temps : List Ident := []
  stmts : List Stmt := []

instance : Append Setup := ⟨fun s t => ⟨s.temps ++ t.temps, s.stmts ++ t.stmts⟩⟩

/-- A statement after what its operands need. -/
def Setup.finish (s : Setup) (last : Stmt) : Stmt :=
  .within s.temps (.ofList (s.stmts ++ [last]))

/-- What lowering knows of a phrase: the operand that it is, if it needs no statements, and the
statement that delivers its value. -/
structure Phrase where
  atom? : Option Operand := none
  into : Target → Lower Stmt

/-- The operand for the value of a phrase, in a fresh temporary unless it is an atom. -/
def Phrase.operand (p : Phrase) : Lower (Operand × Setup) :=
  match p.atom? with
  | some atom => return (atom, {})
  | none => do
    let temp ← freshTemp
    let stmt ← p.into (.ident temp)
    return (.ident temp, ⟨[temp], [stmt]⟩)

def operands : List Phrase → Lower (List Operand × Setup)
  | [] => return ([], {})
  | p :: rest => do
    let (arg, setup) ← p.operand
    let (args, more) ← operands rest
    return (arg :: args, setup ++ more)

def optionalOperand : Option Phrase → Lower (Option Operand × Setup)
  | none => return (none, {})
  | some p => do
    let (arg, setup) ← p.operand
    return (some arg, setup)

def targetIdent : Target → Lower (Ident × Setup)
  | .ident name => return (name, {})
  | .discard => do
    let temp ← freshTemp
    return (temp, ⟨[temp], []⟩)

/-- The argument that delivers a value to the target. -/
def targetArgs : Target → List Operand
  | .ident name => [.ident name]
  | .discard => []

end Lowering

end ActorLang
