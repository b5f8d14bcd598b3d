import Mathlib.Data.List.Permutation
import ActorLang.Proofs.Store.Unification

/-!
# Unification is most general

Let `t` be an extension in which the pairs that unification works through are bisimilar.  Then each
value is, in `t`, interchangeable with what it resolves to on the way: this is what `Below` says,
and every binding preserves it.  In the end, bisimilarity in the resulting store, taken up to values
that are interchangeable in `t`, is a simulation in `t`.
-/

namespace ActorLang

open List

variable {i j : RecordId} {left right w v a b : Value}

namespace Store

open Comparison

variable {s t : Store}

/-! ### Every binding is needed -/

/-- The values resolve to the same, or are bisimilar. -/
def Interchangeable (t : Store) (a b : Value) : Prop :=
  t.resolve a = t.resolve b ∨ t.Bisimilar a b

section Interchangeable

variable {a b c : Value}

theorem Interchangeable.refl (t : Store) (a : Value) :
  t.Interchangeable a a
  := Or.inl rfl

theorem Interchangeable.symm (h : t.Interchangeable a b) :
  t.Interchangeable b a
  := by
  rcases h with h | h
  · apply Or.inl h.symm
  · apply Or.inr h.symm

theorem Interchangeable.bisimilar (h : t.Interchangeable a b) (h' : t.Bisimilar b c) :
  t.Bisimilar a c
  := by
  rcases h with h | h
  · apply h'.of_resolve_eq h.symm rfl
  · apply h.trans h'

theorem Interchangeable.trans (h : t.Interchangeable a b) (h' : t.Interchangeable b c) :
  t.Interchangeable a c
  := by
  rcases h' with h' | h'
  · rcases h with h | h
    · apply Or.inl (h.trans h')
    · apply Or.inr (h.of_resolve_eq rfl h')
  · apply Or.inr (h.bisimilar h')

theorem Interchangeable.exists_scalar {p q : Scalar}
    (h : t.Interchangeable a (.datum (.scalar p))) (hsame : p.same q = true) :
  ∃ r, t.resolve a = .datum (.scalar r) ∧ r.same q = true
  := by
  rcases h with h | h
  · exact ⟨p, h, hsame⟩
  · rcases h.cases with ⟨_, _, hp⟩ | ⟨r, p', hr, hp, hrp⟩ | ⟨_, _, _, hp, -⟩ <;> cases hp
    exact ⟨r, hr, Scalar.same_trans hrp hsame⟩

theorem Interchangeable.exists_record (h : t.Interchangeable a (.datum (.record i))) :
  ∃ j pairs, t.resolve a = .datum (.record j) ∧ (t.record j).fieldPairs? (t.record i) = some pairs ∧
    ∀ p ∈ pairs, t.Interchangeable p.1 p.2
  := by
  have hself : ∃ pairs, (t.record i).fieldPairs? (t.record i) = some pairs ∧
      ∀ p ∈ pairs, t.Interchangeable p.1 p.2 := by
    have hpairs : (t.record i).fieldPairs? (t.record i) = some _ :=
      Record.fieldPairs?_eq_some_iff.mpr ⟨rfl, rfl, rfl⟩
    refine ⟨_, hpairs, ?_⟩
    intro p hp
    obtain ⟨k, hleft, hright⟩ := (Record.mem_fieldPairs?_iff hpairs).mp hp
    rw [hleft] at hright
    rw [Option.some.inj hright]
    apply Interchangeable.refl
  rcases h with h | h
  · obtain ⟨pairs, hpairs, hrel⟩ := hself
    exact ⟨i, pairs, h, hpairs, hrel⟩
  · rcases h.cases with ⟨_, _, hi⟩ | ⟨_, _, _, hi, -⟩ | ⟨j, i', hj, hi, hij⟩ <;> cases hi
    rcases hij with rfl | ⟨pairs, hpairs, hrel⟩
    · obtain ⟨pairs, hpairs, hrel⟩ := hself
      exact ⟨j, pairs, hj, hpairs, hrel⟩
    · refine ⟨j, pairs, hj, hpairs, ?_⟩
      intro p hp
      apply Or.inr (hrel p hp)

end Interchangeable

/-- In `t`, every value is interchangeable with what it resolves to in `s`. -/
structure Below (s t : Store) : Prop where
  record : ∀ id < s.records.size, t.record id = s.record id
  resolve : ∀ v, v.Within s → t.Interchangeable v (s.resolve v)

theorem ExtendedBy.below (h : s.ExtendedBy t) (hs : s.WellFormed) :
  s.Below t where
  record := h.record
  resolve _ hv := Or.inl (h.resolve_resolve hs hv).symm

/-- A binding that unification makes holds wherever the two values are bisimilar. -/
theorem Below.assign (h : s.Below t) (hs : s.WellFormed) {x : VarId}
    (hassigns : s.Assigns left right x w) (hl : left.Within s) (hr : right.Within s)
    (hbis : t.Bisimilar left right) :
  (s.assign x w).Below t
  := by
  have hxw : t.Interchangeable (.var x) w := by
    have hleft := h.resolve left hl
    have hright := h.resolve right hr
    rcases hassigns.heads with ⟨hx, hw⟩ | ⟨hw, hx⟩
    · rw [hx] at hleft
      rw [hw] at hright
      apply Or.inr (hleft.symm.bisimilar (hright.symm.bisimilar hbis.symm).symm)
    · rw [hw] at hleft
      rw [hx] at hright
      apply Or.inr (hright.symm.bisimilar (hleft.symm.bisimilar hbis).symm)
  constructor
  · intro id hid
    rw [assign_records] at hid
    rw [record_assign, h.record id hid]
  · intro v hv
    rw [within_assign] at hv
    have hvs := h.resolve v hv
    rw [hassigns.resolve_eq hs hl hr hv]
    split
    · rename_i hx
      rw [hx] at hvs
      apply hvs.trans hxw
    · apply hvs

theorem Below.bisimilar_heads (h : s.Below t) (hl : left.Within s)
    (hr : right.Within s) (hbis : t.Bisimilar left right) :
  t.Bisimilar (s.resolve left) (s.resolve right)
  := by
  have hleft := (h.resolve left hl).symm.bisimilar hbis
  apply ((h.resolve right hr).symm.bisimilar hleft.symm).symm

theorem bisimilar_record_iff {a b : RecordId} :
  t.Bisimilar (.datum (.record a)) (.datum (.record b)) ↔
    a = b ∨ ∃ pairs, (t.record a).fieldPairs? (t.record b) = some pairs ∧ ∀ p ∈ pairs, t.Bisimilar p.1 p.2
  := by
  constructor
  · intro h
    apply agrees_record_iff.mp (bisimilar_simulates t _ _ h)
  · intro h
    refine ⟨fun v w => t.Bisimilar v w ∨ (v = .datum (.record a) ∧ w = .datum (.record b)), ?_, Or.inr ⟨rfl, rfl⟩⟩
    rintro v w (hvw | ⟨rfl, rfl⟩)
    · apply (bisimilar_simulates t v w hvw).mono
      intro _ _ h
      apply Or.inl h
    · apply (agrees_record_iff.mpr h).mono
      intro _ _ h
      apply Or.inl h

/-- Unification succeeds below every store in which the pairs are bisimilar, and stays below
it. -/
theorem Unifying.succeeds_below {seen : List (RecordId × RecordId)} {work : List (Value × Value)}
    {out : Except Mismatch Unit × Store} (h : Unifying s seen work out) (hs : s.WellFormed)
    (hwork : PairsIn (·.Within s) work) (hbelow : s.Below t)
    (hbis : ∀ p ∈ work, t.Bisimilar p.1 p.2) :
  out.1 = .ok () ∧ out.2.Below t
  := by
  induction h with
  | done => exact ⟨rfl, hbelow⟩
  | agree _ _ ih =>
    obtain ⟨-, hrest⟩ := pairsIn_cons.mp hwork
    apply ih hs hrest hbelow
    intro p hp
    apply hbis p (mem_cons_of_mem _ hp)
  | assign hassigns _ ih =>
    obtain ⟨⟨hl, hr⟩, hrest⟩ := pairsIn_cons.mp hwork
    apply ih (hassigns.wellFormed hs hl hr)
    · intro p hp
      exact ⟨within_assign.mpr (hrest p hp).1, within_assign.mpr (hrest p hp).2⟩
    · apply hbelow.assign hs hassigns hl hr (hbis _ mem_cons_self)
    · intro p hp
      apply hbis p (mem_cons_of_mem _ hp)
  | @expand s _ _ _ a b _ _ _ ha hb hne hpairs _ ih =>
    obtain ⟨⟨hl, hr⟩, hrest⟩ := pairsIn_cons.mp hwork
    have hwa := ha ▸ hs.resolve_within hl
    have hwb := hb ▸ hs.resolve_within hr
    have hheads := hbelow.bisimilar_heads hl hr (hbis _ mem_cons_self)
    rw [ha, hb, bisimilar_record_iff, hbelow.record a hwa, hbelow.record b hwb, hpairs] at hheads
    apply ih hs (hs.closed.pairsIn_fields hwa hwb hpairs hrest) hbelow
    intro p hp
    rcases mem_append.mp hp with hp | hp
    · rcases hheads with hab | ⟨_, heq, hrel⟩
      · exfalso
        apply hne hab
      · cases heq
        apply hrel p (mem_reverse.mp hp)
    · apply hbis p (mem_cons_of_mem _ hp)
  | @clash s _ _ _ d e _ m hd he hclash =>
    obtain ⟨⟨hl, hr⟩, -⟩ := pairsIn_cons.mp hwork
    have hheads := hbelow.bisimilar_heads hl hr (hbis _ mem_cons_self)
    exfalso
    rw [hd, he] at hheads
    rcases hheads.cases with ⟨_, hx, -⟩ | ⟨p, q, hp, hq, hsame⟩ | ⟨a, b, ha, hb, hab⟩
    · cases hx
    · cases hp
      cases hq
      apply hclash (fun _ _ => False) (Agrees.scalar hsame)
    · cases ha
      cases hb
      have hwa := hd ▸ hs.resolve_within hl
      have hwb := he ▸ hs.resolve_within hr
      rw [hbelow.record a hwa, hbelow.record b hwb] at hab
      apply hclash t.Bisimilar (agrees_record_iff.mpr hab)

/-! ### Floats that are not numbers -/

/-- The value leads to no float that is not a number. -/
def NaNFree (s : Store) (v : Value) : Prop :=
  ∀ p, s.Reaches v (.datum (.scalar p)) → ¬ p.IsNaN

theorem NaNFree.of_reaches (h : s.NaNFree v) (hw : s.Reaches v w) :
  s.NaNFree w
  := by
  intro p hp
  apply h p (hw.trans hp)

theorem nanFree_of_no_nan (hslots : ∀ p, .bound (.scalar p) ∈ s.slots.toList → ¬ p.IsNaN)
    (hrecords : ∀ r ∈ s.records.toList, ∀ p, .datum (.scalar p) ∈ r.values → ¬ p.IsNaN) (hv : ∀ p, v = .datum (.scalar p) → ¬ p.IsNaN) :
  s.NaNFree v
  := by
  intro p hp
  generalize hw : Value.datum (.scalar p) = w at hp
  induction hp generalizing p with
  | self => apply hv p hw.symm
  | @resolve w _ ih =>
    cases w with
    | datum => apply ih p hw
    | var x =>
      simp only [Store.resolve] at hw
      split at hw
      · rename_i hslot
        cases hw
        apply hslots p
        rw [Array.mem_toList_iff]
        apply Array.mem_of_getElem? hslot
      · cases hw
  | @field id w _ hmem _ =>
    subst hw
    exact hrecords _ (record_mem hmem) p hmem

/-! ### Generality -/

/-- Bisimilarity in `s`, up to values that are interchangeable in `t`. -/
def BisimilarUpTo (s t : Store) (a b : Value) : Prop :=
  t.NaNFree a ∧ ∃ a' b', a'.Within s ∧ b'.Within s ∧ t.Interchangeable a a' ∧ s.Bisimilar a' b' ∧ t.Interchangeable b b'

/-- Records with bisimilar fields have fields that are bisimilar up to interchangeable values,
in whatever records are interchangeable with them. -/
theorem Below.fields_bisimilarUpTo (hbelow : s.Below t) (hs : s.WellFormed) {pairs : List (Value × Value)} (hi : i < s.records.size)
    (hj : j < s.records.size) (ha : t.Interchangeable a (.datum (.record i)))
    (hb : t.Interchangeable b (.datum (.record j))) (hfree : t.NaNFree a)
    (hpairs : (s.record i).fieldPairs? (s.record j) = some pairs)
    (hrel : ∀ p ∈ pairs, s.Bisimilar p.1 p.2) :
  equality.Agrees t [] (s.BisimilarUpTo t) (t.resolve a) (t.resolve b)
  := by
  obtain ⟨_, _, ha', hpairs₁, hrel₁⟩ := ha.exists_record
  obtain ⟨_, _, hb', hpairs₂, hrel₂⟩ := hb.exists_record
  rw [hbelow.record i hi] at hpairs₁
  rw [hbelow.record j hj] at hpairs₂
  have hij := Record.fieldPairs?_trans hpairs₁ hpairs
  have hpairs₂' := Record.fieldPairs?_symm hpairs₂
  rw [ha', hb']
  apply Agrees.fields (Record.fieldPairs?_trans hij hpairs₂')
  intro p hp
  obtain ⟨w, hpw, hwp⟩ := Record.exists_middle_field hij hpairs₂' hp
  obtain ⟨v, hpv, hvw⟩ := Record.exists_middle_field hpairs₁ hpairs hpw
  have hmem := equality_fieldWise _ _ _ hpairs _ hvw
  have hmem₁ := equality_fieldWise _ _ _ hpairs₁ _ hpv
  constructor
  · apply hfree.of_reaches
    apply Reaches.field (ha' ▸ Reaches.self.resolve) hmem₁.1
  · refine ⟨v, w, hs.fields i v hmem.1, hs.fields j w hmem.2, hrel₁ _ hpv, hrel _ hvw, ?_⟩
    apply hrel₂ (p.2, w)
    obtain ⟨k, hw, hp⟩ := (Record.mem_fieldPairs?_iff hpairs₂').mp hwp
    exact (Record.mem_fieldPairs?_iff hpairs₂).mpr ⟨k, hp, hw⟩

theorem Below.bisimilar (hbelow : s.Below t) (hs : s.WellFormed) (ha : a.Within s)
    (hb : b.Within s) (hnan : t.NaNFree a) (h : s.Bisimilar a b) :
  t.Bisimilar a b
  := by
  refine ⟨fun v w => t.Bisimilar v w ∨ s.BisimilarUpTo t v w, ?_, Or.inr ⟨hnan, a, b, ha, hb,
    Interchangeable.refl t a, h, Interchangeable.refl t b⟩⟩
  have of_bisimilar {v w : Value} (hvw : t.Bisimilar v w) :
      equality.Agrees t [] (fun v w => t.Bisimilar v w ∨ s.BisimilarUpTo t v w) (t.resolve v) (t.resolve w) := by
    apply (bisimilar_simulates t v w hvw).mono
    intro _ _ h
    apply Or.inl h
  rintro v w (hvw | ⟨hfree, v', w', hv', hw', hvv', hbis, hww'⟩)
  · apply of_bisimilar hvw
  have hv := hvv'.trans (hbelow.resolve v' hv')
  have hw := hww'.trans (hbelow.resolve w' hw')
  -- Where the heads are the same in `s`, the values are interchangeable in `t`.
  have of_same (heq : s.resolve v' = s.resolve w') :
      equality.Agrees t [] (fun v w => t.Bisimilar v w ∨ s.BisimilarUpTo t v w) (t.resolve v) (t.resolve w) := by
    rw [← heq] at hw
    rcases hv.trans hw.symm with hvw | hvw
    · rw [← hvw]
      apply equality_agrees_self
      intro p hp
      apply hfree p (hp ▸ Reaches.self.resolve)
    · apply of_bisimilar hvw
  rcases hbis.cases with ⟨x, hx, hx'⟩ | ⟨p, q, hp, hq, hsame⟩ | ⟨i, j, hi, hj, hij⟩
  · apply of_same (hx.trans hx'.symm)
  · rw [hp] at hv
    rw [hq] at hw
    obtain ⟨_, hp', hsame'⟩ := hv.exists_scalar hsame
    obtain ⟨_, hq', hsame''⟩ := hw.exists_scalar (Scalar.same_symm hsame')
    rw [hp', hq']
    apply Agrees.scalar (Scalar.same_symm hsame'')
  · rcases hij with rfl | ⟨_, hpairs, hrel⟩
    · apply of_same (hi.trans hj.symm)
    · rw [hi] at hv
      rw [hj] at hw
      have hwi := hi ▸ hs.resolve_within hv'
      have hwj := hj ▸ hs.resolve_within hw'
      apply (hbelow.fields_bisimilarUpTo hs hwi hwj hv hw hfree hpairs hrel).mono
      intro _ _ h
      apply Or.inr h

/-- Unification computes a most general unifier.  If it succeeds, it has extended the store and
the values are equal.  It succeeds if any extension makes the values equal, and what is equal in
the resulting store is equal in that extension.  A mismatch means that no extension makes the
values equal.  Since a float that is not a number differs even from itself, none is to be reached
from the values. -/
theorem unify_mostGeneral {s : Store} {left right : Value} (hs : s.WellFormed)
    (hl : left.Within s) (hr : right.Within s) (hfree : s.NaNFree left) (hfree' : s.NaNFree right) :
  ((s.unify left right).1 = .ok () →
    s.ExtendedBy (s.unify left right).2 ∧
    (s.unify left right).2.equals left right = .ok true) ∧
  (∀ t : Store, t.WellFormed → s.ExtendedBy t → t.equals left right = .ok true →
    (s.unify left right).1 = .ok () ∧
    ∀ a b : Value, a.Within s → b.Within s → t.NaNFree a →
      (s.unify left right).2.equals a b = .ok true → t.equals a b = .ok true) ∧
  (∀ m, (s.unify left right).1 = .error m →
    ∀ t : Store, t.WellFormed → s.ExtendedBy t → t.equals left right ≠ .ok true)
  := by
  have hclosed := hs.closed_reaches hl hr
  have hpairs : PairsIn (fun v => s.Reaches left v ∨ s.Reaches right v) [(left, right)] := by
    rw [pairsIn_cons]
    exact ⟨⟨Or.inl Reaches.self, Or.inr Reaches.self⟩, by simp [PairsIn]⟩
  have hunifying := unifying_unifyAll hs hclosed [] hpairs
  obtain ⟨hext, hout, -⟩ := hunifying.extendedBy hs hclosed hpairs
  -- An extension that makes the values equal is above every store on the way.
  have above (t : Store) (ht : t.WellFormed) (hst : s.ExtendedBy t)
      (hequal : t.equals left right = .ok true) :
      (s.unify left right).1 = .ok () ∧ (s.unify left right).2.Below t := by
    apply hunifying.succeeds_below hs _ (hst.below hs)
    · intro p hp
      rw [mem_singleton.mp hp]
      apply (equals_eq_ok_true_iff ht (hst.within hl) (hst.within hr)).mp hequal
    · intro p hp
      rw [mem_singleton.mp hp]
      exact ⟨hl, hr⟩
  refine ⟨?_, ?_, ?_⟩
  · intro hok
    refine ⟨hext, ?_⟩
    apply (equals_eq_ok_true_iff hout (hext.within hl) (hext.within hr)).mpr
    have hnan : ∀ p, s.Reaches left (.datum (.scalar p)) ∨ s.Reaches right (.datum (.scalar p)) →
        ¬ p.IsNaN := by
      rintro p (h | h)
      · apply hfree p h
      · apply hfree' p h
    obtain ⟨R, hR, hall⟩ := hunifying.related hs hclosed hpairs hnan hok
    exact ⟨R, hR, hall (left, right) mem_cons_self⟩
  · intro t ht hst hequal
    obtain ⟨hok, hbelow⟩ := above t ht hst hequal
    refine ⟨hok, ?_⟩
    intro a b ha hb hnan hab
    apply (equals_eq_ok_true_iff ht (hst.within ha) (hst.within hb)).mpr
    apply hbelow.bisimilar hout (hext.within ha) (hext.within hb) hnan
    apply (equals_eq_ok_true_iff hout (hext.within ha) (hext.within hb)).mp hab
  · intro m hm t ht hst hequal
    rw [(above t ht hst hequal).1] at hm
    cases hm

/-- Two records that contain themselves.  The first one has a variable where the second one has
a literal. -/
def rings (slot : Slot) : Store where
  slots := #[.bound (.record 0), .bound (.record 1), slot]
  records := #[⟨none, [(.str "next", .var 0), (.str "value", .var 2)]⟩,
    ⟨none, [(.str "next", .var 1), (.str "value", .lit (.bool true))]⟩]

theorem rings_wellFormed :
  (rings .unbound).WellFormed
  := .of_no_link (by decide) (by decide)

theorem rings_nanFree (v : VarId) :
  (rings .unbound).NaNFree (.var v)
  := by
  apply nanFree_of_no_nan
  · simp [rings]
  · simp [rings, Record.values, Leaf.toValue, Leaf.lit, Value.scalar, Scalar.IsNaN, -mem_map]
  · simp

/-- Unifying the two rings gives the variable the literal that it has in any extension in which
the rings are equal. -/
theorem unify_mostGeneral_rings :
  ((rings .unbound).unify (.var 0) (.var 1)).1 = .ok () ∧
  ((rings .unbound).unify (.var 0) (.var 1)).2.equals (.var 0) (.var 1) = .ok true ∧
  (∀ t : Store, t.WellFormed → (rings .unbound).ExtendedBy t → t.NaNFree (.var 2) →
    t.equals (.var 0) (.var 1) = .ok true → t.equals (.var 2) (.lit (.bool true)) = .ok true)
  := by
  obtain ⟨hsound, hgeneral, -⟩ := unify_mostGeneral rings_wellFormed (by decide) (by decide)
    (rings_nanFree 0) (rings_nanFree 1)
  have hok : ((rings .unbound).unify (.var 0) (.var 1)).1 = .ok () := by
    cbv
  refine ⟨hok, (hsound hok).2, ?_⟩
  intro t ht hext hnan hequal
  apply (hgeneral t ht hext hequal).2 (.var 2) (.lit (.bool true)) _ _ hnan
  · cbv
  · decide
  · trivial

end Store

end ActorLang
