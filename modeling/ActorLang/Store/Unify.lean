import ActorLang.Store.Render

/-!
# Unification

Unification makes two values equal by binding variables.  It works through pairs of values and
expands a pair of records at most once, so that it ends on cyclic data.  Bindings made before a
mismatch stay.
-/

namespace ActorLang

/-- Two values that cannot be made equal. -/
structure Mismatch where
  left : String
  right : String
  deriving DecidableEq

def Mismatch.message (m : Mismatch) : String := "cannot unify " ++ m.left ++ " with " ++ m.right

/-- The pairs of fields of two records with the same label and the same features. -/
def Record.fieldPairs? (r s : Record) : Option (List (Value × Value)) :=
  if r.label = s.label ∧ r.fields.map (·.1) = s.fields.map (·.1) then
    some ((r.fields.zip s.fields).map fun (a, b) => (a.2.toValue, b.2.toValue))
  else none

namespace Store

@[simp] theorem setSlot_records (s : Store) (v : VarId) (slot : Slot) :
  (s.setSlot v slot).records = s.records
  := rfl

def mismatch (s : Store) (a b : Value) : Mismatch := ⟨s.render a, s.render b⟩

/-- Unifies the pairs of `work`, the last field of a record first. -/
def unifyAll (s : Store) (seen : List (RecordId × RecordId)) :
    (work : List (Value × Value)) → Except Mismatch Unit × Store
  | [] => (.ok (), s)
  | (left, right) :: rest =>
    match s.resolve left, s.resolve right with
    | .var x, .var y =>
      if x = y then s.unifyAll seen rest else (s.setSlot x (.link y)).unifyAll seen rest
    | .var x, .datum d => (s.setSlot x (.bound d)).unifyAll seen rest
    | .datum d, .var x => (s.setSlot x (.bound d)).unifyAll seen rest
    | .datum (.scalar a), .datum (.scalar b) =>
      if a.same b then s.unifyAll seen rest
      else (.error (s.mismatch (.scalar a) (.scalar b)), s)
    | .datum (.record a), .datum (.record b) =>
      if a = b ∨ seen.contains (a, b) then s.unifyAll seen rest
      else match (s.record a).fieldPairs? (s.record b) with
        | none => (.error (s.mismatch (.record a) (.record b)), s)
        | some pairs =>
          if _h : a < s.records.size ∧ b < s.records.size then
            s.unifyAll ((a, b) :: seen) (pairs.reverse ++ rest)
          else (.error (s.mismatch (.record a) (.record b)), s)
    | .datum a, .datum b => (.error (s.mismatch (.datum a) (.datum b)), s)
termination_by work => (unseen s.recordPairs seen, work.length)
decreasing_by
  all_goals simp_wf
  all_goals first
    | (apply Prod.Lex.right; simp)
    | (apply Prod.Lex.left; apply unseen_cons_lt (mem_recordPairs.mpr _h); simp_all)

def unify (s : Store) (left right : Value) : Except Mismatch Unit × Store :=
  s.unifyAll [] [(left, right)]

end Store

end ActorLang
