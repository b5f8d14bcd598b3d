import ActorLang.Lowering.Pattern
import ActorLang.Machine.Basic
import ActorLang.Store.Compare

/-!
# The meaning of patterns

`Pattern.match?` says in one recursion over a pattern what it matches: a literal what is equal to
it, an escaped name what its value entails, and a record or tuple every record with its label, its
number of fields unless it is partial, and a matching value at every feature.  A lowered pattern is
a kernel pattern and a list of child patterns; `RecordPattern.match?` and `matchChildren?` say what
these match.
-/

namespace ActorLang

open Kernel (Ident FeaturePattern LeafPattern RecordPattern)

abbrev Captures := List (Ident × Value)

/-! ### Parts of a match -/

def holds : Except VarId Bool → Bool
  | .ok b => b
  | .error _ => false

def Record.valueAt? (r : Record) (f : Option Feature) : Option Value := do
  let field ← r.get? (← f)
  return field.toValue

namespace Store

/-- The feature that a name is bound to. -/
def featureOf? (s : Store) (env : Env) (name : Ident) : Option Feature := do
  let v ← env.lookup name
  match s.resolve (.var v) with
  | .datum d => d.feature?
  | .var _ => none

/-- What a pattern without names captures, if the value is equal to the literal. -/
def equalLiteral? (s : Store) (l : Literal) (v : Value) : Option Captures :=
  if holds (s.equals v (.lit l)) then some [] else none

/-- What a pattern without names captures, if the value of the name entails the value. -/
def entailedBy? (s : Store) (env : Env) (name : Ident) (v : Value) : Option Captures := do
  let pinned ← env.lookup name
  if holds (s.entails (.var pinned) v) then some [] else none

/-- The values at the features, if the value is a record with this label, with every feature,
and with no more of them unless that is admitted. -/
def fieldsOf? (s : Store) (v : Value) (label : Option (Option Feature))
    (features : List (Option Feature)) (isPartial : Bool) : Option (List Value) :=
  match s.resolve v with
  | .datum (.record id) => do
    let label ← label
    let r := s.record id
    if r.label = label ∧ (isPartial ∨ r.size = features.length) then
      features.mapM r.valueAt?
    else none
  | _ => none

end Store

/-! ### Patterns as written -/

namespace Pattern

def feature? (s : Store) (env : Env) (p : Pattern) : Option Feature :=
  match p.form with
  | .lit l => Feature.ofLiteral? l
  | .escaped name => s.featureOf? env name
  | _ => none

def label? (s : Store) (env : Env) : Option Pattern → Option (Option Feature)
  | none => some none
  | some p => (p.feature? s env).map some

end Pattern

section

variable (s : Store) (env : Env)

mutual

/-- The values that a pattern captures, if it matches. -/
def Pattern.match? : Pattern → Value → Option Captures
  | .mk _ form, v => form.match? v

def PatternForm.match? : PatternForm → Value → Option Captures
  | .lit l, v => s.equalLiteral? l v
  | .ident name, v => some [(name, v)]
  | .escaped name, v => s.entailedBy? env name v
  | .wildcard, _ => some []
  | .record label fields isPartial, v => do
    let features := fields.map (·.1.feature? s env)
    let values ← s.fieldsOf? v (Pattern.label? s env label) features isPartial
    matchFields? fields values
  | .tuple label patterns isPartial, v => do
    let features := (List.range patterns.length).map fun i => some (Record.position i)
    let values ← s.fieldsOf? v (Pattern.label? s env label) features isPartial
    matchAll? patterns values

/-- The values that the patterns of fields capture, if each matches its value. -/
def matchFields? : List (Pattern × Pattern) → List Value → Option Captures
  | (_, p) :: rest, v :: values => do
    let here ← p.match? v
    let more ← matchFields? rest values
    return here ++ more
  | [], [] => some []
  | _, _ => none

/-- The values that patterns capture, if each matches its value. -/
def matchAll? : List Pattern → List Value → Option Captures
  | p :: rest, v :: values => do
    let here ← p.match? v
    let more ← matchAll? rest values
    return here ++ more
  | [], [] => some []
  | _, _ => none

end

end

/-! ### Lowered patterns -/

namespace Kernel

def FeaturePattern.feature? (s : Store) (env : Env) : FeaturePattern → Option Feature
  | .lit l => Feature.ofLiteral? l
  | .escaped name => s.featureOf? env name

def FeaturePattern.label? (s : Store) (env : Env) : Option FeaturePattern → Option (Option Feature)
  | none => some none
  | some p => (p.feature? s env).map some

def LeafPattern.match? (s : Store) (env : Env) : LeafPattern → Value → Option Captures
  | .lit l, v => s.equalLiteral? l v
  | .ident name, v => some [(name, v)]
  | .escaped name, v => s.entailedBy? env name v

def matchLeaves? (s : Store) (env : Env) : List LeafPattern → List Value → Option Captures
  | leaf :: rest, v :: values => do
    let here ← leaf.match? s env v
    let more ← matchLeaves? s env rest values
    return here ++ more
  | [], [] => some []
  | _, _ => none

def RecordPattern.match? (s : Store) (env : Env) (p : RecordPattern) (v : Value) :
    Option Captures := do
  let features := p.fields.map (·.1.feature? s env)
  let values ← s.fieldsOf? v (FeaturePattern.label? s env p.label) features p.isPartial
  matchLeaves? s env (p.fields.map (·.2)) values

def Pattern.match? (s : Store) (env : Env) : Kernel.Pattern → Value → Option Captures
  | .lit l, v => s.equalLiteral? l v
  | .ident name, v => some [(name, v)]
  | .escaped name, v => s.entailedBy? env name v
  | .record p, v => p.match? s env v

end Kernel

namespace Lowering

/-- The values that child patterns capture beyond those captured before, if each matches the
value captured for it. -/
def matchChildren? (s : Store) (env : Env) : List ChildPattern → Captures → Option Captures
  | [], _ => some []
  | child :: rest, captured => do
    let v ← captured.lookup child.arg
    let here ← child.pattern.match? s env v
    let more ← matchChildren? s env rest (captured ++ here)
    return here ++ more

/-- The values that a lowered pattern captures, if its root and its children match. -/
def matchLowered? (s : Store) (env : Env) (root : Kernel.Pattern)
    (children : List ChildPattern) (v : Value) : Option Captures := do
  let here ← root.match? s env v
  let more ← matchChildren? s env children here
  return here ++ more

end Lowering

end ActorLang
