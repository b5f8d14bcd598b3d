import ActorLang.Lowering.Basic
import ActorLang.Surface.Basic

/-!
# Lowering patterns

A pattern becomes a kernel pattern one level deep, and a list of patterns for the nested
records, each matched against the value that an earlier pattern captures.
-/

namespace ActorLang

open Kernel (Ident FeaturePattern LeafPattern RecordPattern)

/-- Floats and decimals are no features. -/
def Literal.isFeature : Literal → Bool
  | flt32 _ => false
  | flt64 _ => false
  | dec128 _ => false
  | _ => true

namespace Lowering

/-- A pattern for the value captured in `arg`. -/
structure ChildPattern where
  arg : Ident
  pattern : RecordPattern

/-- The pattern of a label or feature. -/
def exactPattern (cause : LowerCause) (p : Pattern) : Lower FeaturePattern :=
  match p.form with
  | .lit value => if value.isFeature then return .lit value else fail cause p.span
  | .escaped name => return .escaped name
  | _ => fail cause p.span

def labelPattern : Option Pattern → Lower (Option FeaturePattern)
  | none => return none
  | some p => return some (← exactPattern .patternLabel p)

def positions (n : Nat) : List FeaturePattern :=
  (List.range n).map fun i => .lit (.int32 (Int32.ofNat i))

def features (fields : List (Pattern × Pattern)) : Lower (List FeaturePattern) :=
  fields.mapM fun (feature, _) => exactPattern .patternFeature feature

mutual

def patternLeaf : Pattern → Lower (LeafPattern × List ChildPattern)
  | .mk _ form => formLeaf form

def formLeaf : PatternForm → Lower (LeafPattern × List ChildPattern)
  | .lit value => return (.lit value, [])
  | .ident name => return (.ident name, [])
  | .escaped name => return (.escaped name, [])
  | .wildcard => return (.ident (← freshAnonymous), [])
  | .record label fields isPartial => do
    let features ← features fields
    let arg ← freshTemp
    let label ← labelPattern label
    let (leaves, nested) ← fieldLeaves fields
    return (.ident arg, ⟨arg, label, features.zip leaves, isPartial⟩ :: nested)
  | .tuple label values isPartial => do
    let arg ← freshTemp
    let label ← labelPattern label
    let (leaves, nested) ← valueLeaves values
    return (.ident arg, ⟨arg, label, (positions leaves.length).zip leaves, isPartial⟩ :: nested)

def valueLeaves : List Pattern → Lower (List LeafPattern × List ChildPattern)
  | [] => return ([], [])
  | p :: rest => do
    let (leaf, nested) ← patternLeaf p
    let (leaves, more) ← valueLeaves rest
    return (leaf :: leaves, nested ++ more)

def fieldLeaves : List (Pattern × Pattern) → Lower (List LeafPattern × List ChildPattern)
  | [] => return ([], [])
  | (_, p) :: rest => do
    let (leaf, nested) ← patternLeaf p
    let (leaves, more) ← fieldLeaves rest
    return (leaf :: leaves, nested ++ more)

end

end Lowering

open Lowering in
/-- The kernel pattern for a pattern, and the patterns for what it nests, in preorder. -/
def Pattern.lower (p : Pattern) : Lower (Kernel.Pattern × List ChildPattern) :=
  match p.form with
  | .lit value => return (.lit value, [])
  | .ident name => return (.ident name, [])
  | .escaped name => return (.escaped name, [])
  | .wildcard => return (.ident (← freshAnonymous), [])
  | .record label fields isPartial => do
    let features ← features fields
    let label ← labelPattern label
    let (leaves, nested) ← fieldLeaves fields
    return (.record ⟨label, features.zip leaves, isPartial⟩, nested)
  | .tuple label values isPartial => do
    let label ← labelPattern label
    let (leaves, nested) ← valueLeaves values
    return (.record ⟨label, (positions leaves.length).zip leaves, isPartial⟩, nested)

end ActorLang
