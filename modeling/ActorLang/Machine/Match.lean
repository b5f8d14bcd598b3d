import ActorLang.Machine.Basic
import ActorLang.Store.Compare

/-!
# Matching

Matching a value against a kernel pattern gives the captured variables, or nothing.  It waits
for a variable only if no other part of the pattern rules the match out.
-/

namespace ActorLang

open Kernel (Ident FeaturePattern LeafPattern RecordPattern Pattern)

namespace Exec

/-- The answer of a comparison, which has to be decided. -/
def decided (r : Except VarId Bool) : Exec Bool :=
  match r with
  | .ok b => return b
  | .error v => throw (.suspend v)

/-- The feature that a pattern asks for. -/
def patternFeature (env : Env) : FeaturePattern → Exec Feature
  | .lit l => match Feature.ofLiteral? l with
    | some f => return f
    | none => fault .patternFeature
  | .escaped name => feature env (.ident name)

def patternLabel (env : Env) : Option FeaturePattern → Exec (Option Feature)
  | none => return none
  | some p => return some (← patternFeature env p)

/-- Matches a field, and adds what it captures.  A name captured before has to have an equal
value. -/
def matchLeaf (env : Env) (captures : List (Ident × VarId)) (field : Leaf) :
    LeafPattern → Exec (Except VarId Bool × List (Ident × VarId))
  | .ident name => do
    let v ← onStore (·.newBound field.toValue)
    match captures.lookup name with
    | some first => return (← withStore (·.equals (.var first) (.var v)), captures)
    | none => return (.ok true, captures ++ [(name, v)])
  | .lit l => return (← withStore (·.equals field.toValue (.lit l)), captures)
  | .escaped name => do
    let pinned ← lookup env name
    return (← withStore (·.entails (.var pinned) field.toValue), captures)

/-- Matches the fields of a record, in the order of the pattern. -/
def matchFields (env : Env) (r : Record) (captures : List (Ident × VarId))
    (waiting : Option VarId) :
    List (FeaturePattern × LeafPattern) → Exec (Option (List (Ident × VarId)))
  | [] => match waiting with
    | some v => throw (.suspend v)
    | none => return some captures
  | (f, leaf) :: rest => do
    let f ← patternFeature env f
    match r.get? f with
    | none => return none
    | some field =>
      match ← matchLeaf env captures field leaf with
      | (.ok true, captures) => matchFields env r captures waiting rest
      | (.ok false, _) => return none
      | (.error v, captures) => matchFields env r captures (waiting.or (some v)) rest

def matchRecord (env : Env) (value : Value) (p : RecordPattern) :
    Exec (Option (List (Ident × VarId))) := do
  match ← determined value with
  | .scalar _ => return none
  | .record id =>
    let label ← patternLabel env p.label
    let r ← withStore (·.record id)
    if r.label ≠ label then return none
    if !p.isPartial && r.size ≠ p.fields.length then return none
    matchFields env r [] none p.fields

def matchPattern (env : Env) (value : Value) : Pattern → Exec (Option (List (Ident × VarId)))
  | .ident name => do
    let v ← onStore (·.newBound value)
    return some [(name, v)]
  | .lit l => do
    let d ← determined value
    let equal ← decided (← withStore (·.equals (.datum d) (.lit l)))
    return if equal then some [] else none
  | .escaped name => do
    let pinned ← lookup env name
    let entailed ← decided (← withStore (·.entails (.var pinned) value))
    return if entailed then some [] else none
  | .record p => matchRecord env value p

end Exec

end ActorLang
