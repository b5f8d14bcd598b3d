import ActorLang.Proofs.Store.WellFormed

/-!
# What a value leads to

A value leads to what it resolves to and to the fields of its record, over any number of steps.
The values that it leads to are the least closed set with the value.
-/

namespace ActorLang

namespace Store

/-- A set of values that contains what they stand for and the fields of their records. -/
structure Closed (s : Store) (P : Value → Prop) : Prop where
  within : ∀ v, P v → v.Within s
  resolve : ∀ v, P v → P (s.resolve v)
  fields : ∀ id, P (.datum (.record id)) → ∀ v ∈ (s.record id).values, P v

theorem WellFormed.closed {s : Store} (hs : s.WellFormed) :
  s.Closed (·.Within s) where
  within _ hv := hv
  resolve _ hv := hs.resolve_within hv
  fields id _ := hs.fields id

/-- The values that a value leads to. -/
inductive Reaches (s : Store) (v : Value) : Value → Prop where
  | self : Reaches s v v
  | resolve {w} (h : Reaches s v w) : Reaches s v (s.resolve w)
  | field {id w} (h : Reaches s v (.datum (.record id))) (hw : w ∈ (s.record id).values) :
      Reaches s v w

theorem Reaches.trans {s : Store} {u v w : Value} (h : s.Reaches u v) (h' : s.Reaches v w) :
  s.Reaches u w
  := by
  induction h' with
  | self => apply h
  | resolve _ ih => apply Reaches.resolve ih
  | field _ hw ih => apply Reaches.field ih hw

theorem WellFormed.within_of_reaches {s : Store} (hs : s.WellFormed) {v w : Value}
    (hv : v.Within s) (h : s.Reaches v w) :
  w.Within s
  := by
  induction h with
  | self => apply hv
  | resolve _ ih => apply hs.resolve_within ih
  | field _ hw _ => apply hs.fields _ _ hw

theorem WellFormed.closed_reaches {s : Store} (hs : s.WellFormed) {left right : Value}
    (hl : left.Within s) (hr : right.Within s) :
  s.Closed fun v => s.Reaches left v ∨ s.Reaches right v
  := by
  constructor
  · rintro v (h | h)
    · apply hs.within_of_reaches hl h
    · apply hs.within_of_reaches hr h
  · rintro v (h | h)
    · apply Or.inl h.resolve
    · apply Or.inr h.resolve
  · rintro _ (h | h) v hv
    · apply Or.inl (h.field hv)
    · apply Or.inr (h.field hv)

end Store

end ActorLang
