import ActorLang.Store.Unify

/-!
# Equality and entailment

Comparisons of values that bind nothing.  A comparison is decided, or it waits for a variable.
-/

namespace ActorLang

/-- A way to compare values. -/
structure Comparison where
  /-- The variable to wait for when one of two resolved values is a variable. -/
  waits : Value → Value → Option VarId
  /-- The fields to compare when both are records, unless they differ already. -/
  fields? : Record → Record → Option (List (Value × Value))

namespace Comparison

def equality : Comparison where
  waits
    | .var x, .var y => if x = y then none else some x
    | .var x, .datum _ => some x
    | .datum _, .var y => some y
    | .datum _, .datum _ => none
  fields? := Record.fieldPairs?

/-- Each field of the left record is matched by one of the right record. -/
def entailedFields? (r s : Record) : Option (List (Value × Value)) :=
  if r.label = s.label then
    r.fields.mapM fun (f, v) => (s.get? f).map fun w => (v.toValue, w.toValue)
  else none

/-- The left value says nothing that the right one does not say. -/
def entailment : Comparison where
  waits
    | .var _, _ => none
    | .datum _, .var y => some y
    | .datum _, .datum _ => none
  fields? := entailedFields?

end Comparison

namespace Store

/-- Compares the pairs of `work`, the last field of a record first.  A difference decides even
if other pairs have to wait. -/
def compareAll (s : Store) (c : Comparison) (seen : List (RecordId × RecordId))
    (waiting : Option VarId) : (work : List (Value × Value)) → Except VarId Bool
  | [] => match waiting with
    | some v => .error v
    | none => .ok true
  | (left, right) :: rest =>
    match s.resolve left, s.resolve right with
    | .datum (.scalar a), .datum (.scalar b) =>
      if a.same b then s.compareAll c seen waiting rest else .ok false
    | .datum (.record a), .datum (.record b) =>
      if a = b ∨ seen.contains (a, b) then s.compareAll c seen waiting rest
      else match c.fields? (s.record a) (s.record b) with
        | none => .ok false
        | some pairs =>
          if _h : a < s.records.size ∧ b < s.records.size then
            s.compareAll c ((a, b) :: seen) waiting (pairs.reverse ++ rest)
          else .ok false
    | .datum _, .datum _ => .ok false
    | a, b => s.compareAll c seen (waiting.or (c.waits a b)) rest
termination_by work => (unseen s.recordPairs seen, work.length)
decreasing_by
  all_goals simp_wf
  all_goals first
    | (apply Prod.Lex.right; simp)
    | (apply Prod.Lex.left; apply unseen_cons_lt (mem_recordPairs.mpr _h); simp_all)

/-- Whether two values are equal, or the variable that this depends on. -/
def equals (s : Store) (left right : Value) : Except VarId Bool :=
  s.compareAll .equality [] none [(left, right)]

/-- Whether the left value entails the right one, or the variable that this depends on. -/
def entails (s : Store) (left right : Value) : Except VarId Bool :=
  s.compareAll .entailment [] none [(left, right)]

end Store

end ActorLang
