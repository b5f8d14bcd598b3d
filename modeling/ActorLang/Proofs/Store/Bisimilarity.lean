import ActorLang.Proofs.Store.Scalars
import ActorLang.Proofs.Store.Simulation

/-!
# Bisimilar values

Two values are bisimilar if a simulation of structural equality relates them, which is what `equals`
decides.  Bisimilarity is symmetric and transitive.  It is not reflexive, since a float that is not
a number differs from itself.
-/

namespace ActorLang

open Comparison List

/-! ### Fields in pairs -/

namespace Record

variable {r r' r'' : Record} {pairs pairs' : List (Value × Value)} {p : Value × Value}

theorem fieldPairs?_eq_some_iff :
  r.fieldPairs? r' = some pairs ↔ r.label = r'.label ∧ r.fields.map (·.1) = r'.fields.map (·.1) ∧
      pairs = r.values.zip r'.values
  := by
  have hzip : r.values.zip r'.values = (r.fields.zip r'.fields).map fun f => (f.1.2.toValue, f.2.2.toValue) := by
    simp [values, zip_map]
  unfold fieldPairs?
  split
  · rename_i h
    simp [h, hzip, eq_comm]
  · rename_i h
    simp only [reduceCtorEq, false_iff]
    rintro ⟨hlabel, hfeatures, -⟩
    apply h ⟨hlabel, hfeatures⟩

section

variable (h : r.fieldPairs? r' = some pairs)

include h

theorem mem_fieldPairs?_iff :
  p ∈ pairs ↔ ∃ i : Nat, r.values[i]? = some p.1 ∧ r'.values[i]? = some p.2
  := by
  obtain ⟨-, -, rfl⟩ := fieldPairs?_eq_some_iff.mp h
  rw [mem_iff_getElem?]
  simp only [List.getElem?_zip_eq_some]

theorem fieldPairs?_symm :
  r'.fieldPairs? r = some (r'.values.zip r.values)
  := by
  obtain ⟨hlabel, hfeatures, -⟩ := fieldPairs?_eq_some_iff.mp h
  exact fieldPairs?_eq_some_iff.mpr ⟨hlabel.symm, hfeatures.symm, rfl⟩

theorem fieldPairs?_trans (h' : r'.fieldPairs? r'' = some pairs') :
  r.fieldPairs? r'' = some (r.values.zip r''.values)
  := by
  obtain ⟨hlabel, hfeatures, -⟩ := fieldPairs?_eq_some_iff.mp h
  obtain ⟨hlabel', hfeatures', -⟩ := fieldPairs?_eq_some_iff.mp h'
  exact fieldPairs?_eq_some_iff.mpr ⟨hlabel.trans hlabel', hfeatures.trans hfeatures', rfl⟩

theorem length_values_eq :
  r.values.length = r'.values.length
  := by
  obtain ⟨-, hfeatures, -⟩ := fieldPairs?_eq_some_iff.mp h
  have := congrArg List.length hfeatures
  simpa [values] using this

theorem exists_middle_field (h' : r'.fieldPairs? r'' = some pairs') (hp : p ∈ r.values.zip r''.values) :
  ∃ v, (p.1, v) ∈ pairs ∧ (v, p.2) ∈ pairs'
  := by
  obtain ⟨i, hi⟩ := (mem_fieldPairs?_iff (fieldPairs?_trans h h')).mp hp
  have hlt : i < r'.values.length := by
    rw [← length_values_eq h]
    apply (List.getElem?_eq_some_iff.mp hi.1).1
  have hmiddle : r'.values[i]? = some r'.values[i] := List.getElem?_eq_getElem hlt
  use r'.values[i]
  constructor
  · exact (mem_fieldPairs?_iff h).mpr ⟨i, hi.1, hmiddle⟩
  · exact (mem_fieldPairs?_iff h').mpr ⟨i, hmiddle, hi.2⟩

end

end Record

theorem Comparison.equality_fieldWise :
  equality.FieldWise
  := by
  intro r _ _ h p hp
  obtain ⟨i, hleft, hright⟩ := (Record.mem_fieldPairs?_iff h).mp hp
  constructor
  · apply mem_of_getElem? hleft
  · apply mem_of_getElem? hright

theorem Comparison.waits_equality_iff {a b : Value} {v : VarId} (h : a = .var v ∨ b = .var v) :
  equality.waits a b = none ↔ a = b
  := by
  rcases h with rfl | rfl
  · cases b with
    | var | datum => simp [equality]
  · cases a with
    | var | datum => simp [equality]

namespace Store

variable {s : Store} {a b c : Value}

/-- The values are related by a simulation of structural equality. -/
def Bisimilar (s : Store) (a b : Value) : Prop :=
  ∃ R, equality.Simulates s [] R ∧ R a b

theorem bisimilar_simulates (s : Store) :
  equality.Simulates s [] s.Bisimilar
  := by
  rintro a b ⟨R, hR, hab⟩
  apply (hR a b hab).mono
  intro a b _
  use R, hR

theorem Bisimilar.cases (h : s.Bisimilar a b) :
  (∃ x, s.resolve a = .var x ∧ s.resolve b = .var x) ∨
  (∃ p q, s.resolve a = .datum (.scalar p) ∧ s.resolve b = .datum (.scalar q) ∧ p.same q = true) ∨
  ∃ i j, s.resolve a = .datum (.record i) ∧ s.resolve b = .datum (.record j) ∧
    (i = j ∨ ∃ pairs, (s.record i).fieldPairs? (s.record j) = some pairs ∧ ∀ p ∈ pairs, s.Bisimilar p.1 p.2)
  := by
  have hagree := bisimilar_simulates s a b h
  cases ha : s.resolve a with
  | var x =>
    left
    use x, rfl
    rw [ha] at hagree
    have hwaits := hagree.waits_eq_none (by simp)
    rw [waits_equality_iff (Or.inl rfl)] at hwaits
    apply hwaits.symm
  | datum =>
    cases hb : s.resolve b with
    | var =>
      rw [ha, hb] at hagree
      have hwaits := hagree.waits_eq_none (by simp)
      cases hwaits
    | datum =>
      right
      rw [ha, hb] at hagree
      rcases hagree.data_cases with ⟨p, q, rfl, rfl⟩ | ⟨i, j, rfl, rfl⟩
      · left
        exact ⟨p, q, rfl, rfl, agrees_scalar_iff.mp hagree⟩
      · right
        exact ⟨i, j, rfl, rfl, agrees_record_iff.mp hagree⟩

/-- A value agrees with itself, unless it is a float that is not a number. -/
theorem equality_agrees_self {seen : List (RecordId × RecordId)} {R : Value → Value → Prop}
    (hnan : ∀ p, a = .datum (.scalar p) → ¬ p.IsNaN) :
  equality.Agrees s seen R a a
  := by
  cases a with
  | var => apply Agrees.variable (Or.inl rfl) ((waits_equality_iff (Or.inl rfl)).mpr rfl)
  | datum d =>
    cases d with
    | scalar p => apply Agrees.scalar (Scalar.same_self (hnan p rfl))
    | record => apply Agrees.identical

theorem Bisimilar.symm (h : s.Bisimilar a b) :
  s.Bisimilar b a
  := by
  refine ⟨fun v w => s.Bisimilar w v, ?_, h⟩
  intro v w hvw
  rcases hvw.cases with ⟨x, hw, hv⟩ | ⟨p, q, hw, hv, hsame⟩ | ⟨i, j, hw, hv, hij⟩
  · rw [hv, hw]
    apply equality_agrees_self
    simp
  · rw [hv, hw]
    apply Agrees.scalar (Scalar.same_symm hsame)
  · rw [hv, hw]
    rcases hij with rfl | ⟨_, hpairs, hrel⟩
    · apply Agrees.identical
    · apply Agrees.fields (Record.fieldPairs?_symm hpairs)
      rintro ⟨v, w⟩ hp
      apply hrel (w, v)
      obtain ⟨k, hk⟩ := (Record.mem_fieldPairs?_iff (Record.fieldPairs?_symm hpairs)).mp hp
      exact (Record.mem_fieldPairs?_iff hpairs).mpr ⟨k, hk.2, hk.1⟩

theorem Bisimilar.trans (h : s.Bisimilar a b) (h' : s.Bisimilar b c) :
  s.Bisimilar a c
  := by
  -- A record may hold a float that is not a number, so the two steps cannot be had from one.
  refine ⟨fun v w => s.Bisimilar v w ∨ ∃ u, s.Bisimilar v u ∧ s.Bisimilar u w, ?_, Or.inr ⟨b, h, h'⟩⟩
  rintro v w (hvw | ⟨u, hvu, huw⟩)
  · apply (bisimilar_simulates s v w hvw).mono
    intro _ _ h
    apply Or.inl h
  rcases hvu.cases with ⟨x, hv, hu⟩ | ⟨p, q, hv, hu, hsame⟩ | ⟨i, j, hv, hu, hij⟩
  · rcases huw.cases with ⟨y, hu', hw⟩ | ⟨_, _, hu', -⟩ | ⟨_, _, hu', -⟩ <;>
      rw [hu] at hu' <;> cases hu'
    rw [hv, hw]
    apply equality_agrees_self
    simp
  · rcases huw.cases with ⟨_, hu', -⟩ | ⟨q', r, hu', hw, hsame'⟩ | ⟨_, _, hu', -⟩ <;>
      rw [hu] at hu' <;> cases hu'
    rw [hv, hw]
    apply Agrees.scalar (Scalar.same_trans hsame hsame')
  · rcases huw.cases with ⟨_, hu', -⟩ | ⟨_, _, hu', -⟩ | ⟨j', k, hu', hw, hjk⟩ <;>
      rw [hu] at hu' <;> cases hu'
    rw [hv, hw]
    rcases hij with rfl | ⟨pairs, hpairs, hrel⟩ <;> rcases hjk with rfl | ⟨_, hpairs', hrel'⟩
    · apply Agrees.identical
    · apply Agrees.fields hpairs'
      intro p hp
      apply Or.inl (hrel' p hp)
    · apply Agrees.fields hpairs
      intro p hp
      apply Or.inl (hrel p hp)
    · apply Agrees.fields (Record.fieldPairs?_trans hpairs hpairs')
      intro p hp
      obtain ⟨u, hleft, hright⟩ := Record.exists_middle_field hpairs hpairs' hp
      apply Or.inr ⟨u, hrel _ hleft, hrel' _ hright⟩

theorem Bisimilar.of_resolve_eq {a' b' : Value} (ha : s.resolve a = s.resolve a')
    (hb : s.resolve b = s.resolve b') (h : s.Bisimilar a b) :
  s.Bisimilar a' b'
  := by
  refine ⟨fun v w => s.Bisimilar v w ∨ (v = a' ∧ w = b'), ?_, Or.inr ⟨rfl, rfl⟩⟩
  rintro v w (hvw | ⟨rfl, rfl⟩)
  · apply (bisimilar_simulates s v w hvw).mono
    intro _ _ h
    apply Or.inl h
  · rw [← ha, ← hb]
    apply (bisimilar_simulates s a b h).mono
    intro _ _ h
    apply Or.inl h

theorem equals_eq_ok_true_iff (hs : s.WellFormed) (ha : a.Within s) (hb : b.Within s) :
  s.equals a b = .ok true ↔ s.Bisimilar a b
  := by
  constructor
  · intro h
    obtain ⟨-, R, hR, hall⟩ := related_of_compareAll h
    exact ⟨R, hR, hall (a, b) mem_cons_self⟩
  · rintro ⟨R, hR, hab⟩
    apply compareAll_of_simulates hs equality_fieldWise hR rfl
    intro p hp
    rw [mem_singleton] at hp
    subst hp
    exact ⟨hab, ha, hb⟩

end Store

end ActorLang
