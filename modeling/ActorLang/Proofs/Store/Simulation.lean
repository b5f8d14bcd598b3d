import ActorLang.Proofs.Store.WellFormed
import ActorLang.Store.Compare

/-!
# Comparisons as simulations

A comparison of two values, however cyclic, succeeds precisely if a simulation relates them: a
relation whose pairs agree at their heads and whose fields are related again.  The pairs of records
that a comparison has expanded are an assumption of what it still has to do, which `Simulates`
carries along.
-/

namespace ActorLang

open List

variable {R R' : Value → Value → Prop} {a b : RecordId} {pairs work work' : List (Value × Value)}
  {v w : Value} {seen : List (RecordId × RecordId)} {waiting : Option VarId} {c : Comparison}
  {s : Store}

namespace Comparison

/-- Two resolved values agree, up to the pairs of records in `seen` and up to the relation of
their fields. -/
inductive Agrees (c : Comparison) (s : Store) (seen : List (RecordId × RecordId))
    (R : Value → Value → Prop) : Value → Value → Prop where
  | variable {a b : Value} {v : VarId} (hv : a = .var v ∨ b = .var v)
      (hwaits : c.waits a b = none) : Agrees c s seen R a b
  | scalar {a b : Scalar} (h : a.same b = true) :
      Agrees c s seen R (.datum (.scalar a)) (.datum (.scalar b))
  | identical (id : RecordId) : Agrees c s seen R (.datum (.record id)) (.datum (.record id))
  | expanded {a b : RecordId} (h : (a, b) ∈ seen) :
      Agrees c s seen R (.datum (.record a)) (.datum (.record b))
  | fields {a b : RecordId} {pairs : List (Value × Value)} (hpairs : c.fields? (s.record a) (s.record b) = some pairs)
      (hrel : ∀ p ∈ pairs, R p.1 p.2) :
      Agrees c s seen R (.datum (.record a)) (.datum (.record b))

/-- Related values agree at their heads. -/
def Simulates (c : Comparison) (s : Store) (seen : List (RecordId × RecordId)) (R : Value → Value → Prop) : Prop :=
  ∀ a b, R a b → c.Agrees s seen R (s.resolve a) (s.resolve b)

/-- The pairs to compare come from the fields of the two records. -/
def FieldWise (c : Comparison) : Prop :=
  ∀ r r' pairs, c.fields? r r' = some pairs → ∀ p ∈ pairs, p.1 ∈ r.values ∧ p.2 ∈ r'.values

theorem Agrees.mono (h : ∀ a b, R a b → R' a b) {a b : Value} (hab : c.Agrees s seen R a b) :
  c.Agrees s seen R' a b
  := by
  cases hab with
  | «variable» hv hwaits => apply Agrees.variable hv hwaits
  | scalar h => apply Agrees.scalar h
  | identical => apply Agrees.identical
  | expanded h => apply Agrees.expanded h
  | fields hpairs hrel =>
    apply Agrees.fields hpairs
    intro p hp
    apply h _ _ (hrel p hp)

theorem Agrees.discharge (hpairs : c.fields? (s.record a) (s.record b) = some pairs)
    (hrel : ∀ p ∈ pairs, R p.1 p.2) (h : c.Agrees s ((a, b) :: seen) R v w) :
  c.Agrees s seen R v w
  := by
  cases h with
  | «variable» hv hwaits => apply Agrees.variable hv hwaits
  | scalar h => apply Agrees.scalar h
  | identical => apply Agrees.identical
  | expanded h =>
    rcases mem_cons.mp h with heq | h
    · cases heq
      apply Agrees.fields hpairs hrel
    · apply Agrees.expanded h
  | fields hpairs hrel => apply Agrees.fields hpairs hrel

/-! ### Heads that agree -/

section Heads

theorem agrees_scalar_iff {a b : Scalar} :
  c.Agrees s seen R (.datum (.scalar a)) (.datum (.scalar b)) ↔ a.same b = true
  := by
  constructor
  · intro h
    cases h with
    | «variable» hv => simp at hv
    | scalar h => apply h
  · apply Agrees.scalar

theorem agrees_record_iff :
  c.Agrees s [] R (.datum (.record a)) (.datum (.record b)) ↔
    a = b ∨ ∃ pairs, c.fields? (s.record a) (s.record b) = some pairs ∧ ∀ p ∈ pairs, R p.1 p.2
  := by
  constructor
  · intro h
    cases h with
    | «variable» hv => simp at hv
    | identical => apply Or.inl rfl
    | expanded h => simp at h
    | fields hpairs hrel => exact Or.inr ⟨_, hpairs, hrel⟩
  · rintro (rfl | ⟨_, hpairs, hrel⟩)
    · apply Agrees.identical
    · apply Agrees.fields hpairs hrel

theorem Agrees.data_cases {d e : Datum} (h : c.Agrees s seen R (.datum d) (.datum e)) :
  (∃ a b, d = .scalar a ∧ e = .scalar b) ∨ ∃ a b, d = .record a ∧ e = .record b
  := by
  cases h with
  | «variable» hv => simp at hv
  | scalar | identical | expanded | fields => simp

theorem Agrees.waits_eq_none {a b : Value} (h : c.Agrees s seen R a b)
    (hvar : ∀ d e, a = .datum d → b = .datum e → False) :
  c.waits a b = none
  := by
  cases h with
  | «variable» _ hwaits => apply hwaits
  | scalar _ | identical | expanded _ | fields _ _ =>
    exfalso
    apply hvar _ _ rfl rfl

end Heads

/-! ### Related pairs -/

/-- Pairs of values are related by a simulation. -/
def Related (c : Comparison) (s : Store) (seen : List (RecordId × RecordId)) (work : List (Value × Value)) : Prop :=
  ∃ R, c.Simulates s seen R ∧ ∀ p ∈ work, R p.1 p.2

theorem Related.cons (h : ∀ R : Value → Value → Prop, (∀ p ∈ work, R p.1 p.2) →
      c.Agrees s seen R (s.resolve v) (s.resolve w))
    (hwork : c.Related s seen work) :
  c.Related s seen ((v, w) :: work)
  := by
  obtain ⟨R, hR, hall⟩ := hwork
  use fun a b => R a b ∨ (a = v ∧ b = w)
  constructor
  · rintro a b (hab | ⟨rfl, rfl⟩)
    · apply (hR a b hab).mono
      intro _ _ h
      apply Or.inl h
    · apply h
      intro p hp
      apply Or.inl (hall p hp)
  · intro p hp
    rcases mem_cons.mp hp with rfl | hp
    · apply Or.inr ⟨rfl, rfl⟩
    · apply Or.inl (hall p hp)

theorem Related.of_subset (hsub : work' ⊆ work) (hwork : c.Related s seen work) :
  c.Related s seen work'
  := by
  obtain ⟨R, hR, hall⟩ := hwork
  use R, hR
  intro p hp
  apply hall p (hsub hp)

theorem Related.discharge (hpairs : c.fields? (s.record a) (s.record b) = some pairs) (hsub : pairs ⊆ work)
    (hwork : c.Related s ((a, b) :: seen) work) :
  c.Related s seen work
  := by
  obtain ⟨R, hR, hall⟩ := hwork
  refine ⟨R, ?_, hall⟩
  intro v w hvw
  apply (hR v w hvw).discharge hpairs
  intro p hp
  apply hall p (hsub hp)

end Comparison

namespace Store

open Comparison

/-- The pairs that a successful comparison works through are related by a simulation. -/
theorem related_of_compareAll (h : s.compareAll c seen waiting work = .ok true) :
  waiting = none ∧ c.Related s seen work
  := by
  fun_induction compareAll s c seen waiting work with
  | case1 | case4 | case6 | case8 | case9 => cases h
  | case2 =>
    refine ⟨rfl, fun _ _ => False, ?_, ?_⟩
    · intro _ _ hf
      cases hf
    · simp
  | case3 _ _ _ _ _ a b hb ha hsame ih =>
    obtain ⟨hwaiting, hrest⟩ := ih h
    refine ⟨hwaiting, hrest.cons ?_⟩
    intro R _
    rw [ha, hb]
    apply Agrees.scalar hsame
  | case5 _ _ _ _ _ a b hb ha hseen ih =>
    obtain ⟨hwaiting, hrest⟩ := ih h
    refine ⟨hwaiting, hrest.cons ?_⟩
    intro R _
    rw [ha, hb]
    rcases hseen with rfl | hseen
    · apply Agrees.identical
    · apply Agrees.expanded (contains_iff_mem.mp hseen)
  | case7 seen _ left right rest a b hb ha _ pairs hpairs _ ih =>
    obtain ⟨hwaiting, hwork⟩ := ih h
    have hsub : pairs ⊆ pairs.reverse ++ rest := by
      intro p hp
      simp [hp]
    have hall : c.Related s seen ((left, right) :: (pairs.reverse ++ rest)) := by
      apply Related.cons _ (hwork.discharge hpairs hsub)
      intro R hR
      rw [ha, hb]
      apply Agrees.fields hpairs
      intro p hp
      apply hR p (hsub hp)
    refine ⟨hwaiting, hall.of_subset ?_⟩
    simp
  | case10 _ _ left right _ _ _ hdatum ih =>
    obtain ⟨hwaiting, hrest⟩ := ih h
    obtain ⟨hwaiting, hwaits⟩ := Option.or_eq_none_iff.mp hwaiting
    refine ⟨hwaiting, hrest.cons ?_⟩
    intro R _
    cases hl : s.resolve left with
    | var => apply Agrees.variable (Or.inl rfl) (hl ▸ hwaits)
    | datum d =>
      cases hr : s.resolve right with
      | var => apply Agrees.variable (Or.inr rfl) (hl ▸ hr ▸ hwaits)
      | datum e =>
        exfalso
        apply hdatum d e hl hr

/-- The heads of two data, which the store has, do not agree. -/
def HeadsClash (s : Store) (c : Comparison) (d e : Datum) : Prop :=
  (Value.datum d).Within s → (Value.datum e).Within s → ¬ c.Agrees s [] (fun _ _ => True) (.datum d) (.datum e)

/-- What a comparison answers, it has found at a pair that comes from the fields of pairs. -/
theorem compareAll_cases (s : Store) (c : Comparison) (seen : List (RecordId × RecordId)) (waiting : Option VarId)
    {P : Value → Value → Prop} {D : Prop} {W : VarId → Prop}
    (hfields : ∀ v w a b, P v w → s.resolve v = .datum (.record a) → s.resolve w = .datum (.record b) → a ≠ b →
      ∀ pairs, c.fields? (s.record a) (s.record b) = some pairs → ∀ p ∈ pairs, P p.1 p.2)
    (hclash : ∀ v w d e, P v w → s.resolve v = .datum d → s.resolve w = .datum e → s.HeadsClash c d e → D)
    (hwaits : ∀ v w x, P v w → (∀ d e, s.resolve v = .datum d → s.resolve w ≠ .datum e) →
      c.waits (s.resolve v) (s.resolve w) = some x → W x)
    (hwaiting : ∀ x, waiting = some x → W x) (hwork : ∀ p ∈ work, P p.1 p.2) :
  s.compareAll c seen waiting work = .ok true ∨ (s.compareAll c seen waiting work = .ok false ∧ D) ∨
    ∃ x, s.compareAll c seen waiting work = .error x ∧ W x
  := by
  fun_induction compareAll s c seen waiting work with
  | case1 _ x => exact .inr (.inr ⟨x, rfl, hwaiting x rfl⟩)
  | case2 => exact .inl rfl
  | case3 _ _ _ _ _ a b hb ha _ ih
  | case5 _ _ _ _ _ a b hb ha _ ih => exact ih hwaiting (forall_mem_cons.mp hwork).2
  | case4 _ _ _ _ _ a b hb ha hsame =>
    refine .inr (.inl ⟨rfl, hclash _ _ _ _ (hwork _ mem_cons_self) ha hb fun _ _ hagrees => ?_⟩)
    exact hsame (agrees_scalar_iff.mp hagrees)
  | case6 _ _ _ _ _ a b hb ha hseen hnone =>
    refine .inr (.inl ⟨rfl, hclash _ _ _ _ (hwork _ mem_cons_self) ha hb fun _ _ hagrees => ?_⟩)
    rcases agrees_record_iff.mp hagrees with heq | ⟨_, hsome, _⟩
    · exact hseen (.inl heq)
    · cases hnone.symm.trans hsome
  | case7 _ _ _ _ _ a b hb ha hseen pairs hpairs _ ih =>
    obtain ⟨hpair, hrest⟩ := forall_mem_cons.mp hwork
    refine ih hwaiting (forall_mem_append.mpr ⟨fun p hp => ?_, hrest⟩)
    exact hfields _ _ a b hpair ha hb (fun heq => hseen (.inl heq)) pairs hpairs p (mem_reverse.mp hp)
  | case8 _ _ _ _ _ a b hb ha _ _ _ hlt =>
    exact .inr (.inl ⟨rfl, hclash _ _ _ _ (hwork _ mem_cons_self) ha hb fun ha hb _ => hlt ⟨ha, hb⟩⟩)
  | case9 _ _ _ _ _ d e hscalar hrecord hb ha =>
    refine .inr (.inl ⟨rfl, hclash _ _ _ _ (hwork _ mem_cons_self) ha hb fun _ _ hagrees => ?_⟩)
    rcases hagrees.data_cases with ⟨a, b, rfl, rfl⟩ | ⟨a, b, rfl, rfl⟩
    · exact hscalar a b rfl rfl
    · exact hrecord a b rfl rfl
  | case10 _ _ left right _ _ _ hdatum ih =>
    obtain ⟨hpair, hrest⟩ := forall_mem_cons.mp hwork
    refine ih (fun x hx => ?_) hrest
    rcases Option.or_eq_some_iff.mp hx with hx | ⟨-, hx⟩
    · exact hwaiting x hx
    · exact hwaits left right x hpair hdatum hx

/-- Pairs that are related by a simulation compare successfully. -/
theorem compareAll_of_simulates (hs : s.WellFormed) (hc : c.FieldWise) (hR : c.Simulates s [] R) (hwaiting : waiting = none)
    (hwork : ∀ p ∈ work, R p.1 p.2 ∧ p.1.Within s ∧ p.2.Within s) :
  s.compareAll c seen waiting work = .ok true
  := by
  refine (s.compareAll_cases c seen waiting (P := fun v w => R v w ∧ v.Within s ∧ w.Within s)
    (D := False) (W := fun _ => False) ?_ ?_ ?_ (by simp [hwaiting]) hwork).resolve_right (by simp)
  · rintro v w a b ⟨hvw, -, -⟩ ha hb hne _ hpairs p hp
    have hagrees := hR v w hvw
    rw [ha, hb, agrees_record_iff, hpairs] at hagrees
    obtain ⟨_, heq, hrel⟩ := hagrees.resolve_left hne
    cases heq
    have hmem := hc _ _ _ hpairs p hp
    exact ⟨hrel p hp, hs.fields a _ hmem.1, hs.fields b _ hmem.2⟩
  · rintro v w d e ⟨hvw, hv, hw⟩ hd he hclash
    have hagrees := hR v w hvw
    rw [hd, he] at hagrees
    exact hclash (hd ▸ hs.resolve_within hv) (he ▸ hs.resolve_within hw) (hagrees.mono fun _ _ _ => trivial)
  · rintro v w x ⟨hvw, -, -⟩ hdatum hx
    cases ((hR v w hvw).waits_eq_none hdatum).symm.trans hx

end Store

end ActorLang
