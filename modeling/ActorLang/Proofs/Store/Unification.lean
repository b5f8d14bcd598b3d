import ActorLang.Proofs.Store.Bisimilarity
import ActorLang.Proofs.Store.Reachability

/-!
# Unification makes values equal

`Unifying` says what unification does with the pairs that it works through: a pair that agrees is
dropped, a variable is assigned the other side, a pair of records is expanded, and a clash ends the
work.  Induction over it shows that unification only extends the store, and makes the pairs
bisimilar when it succeeds.
-/

namespace ActorLang

variable {d : Datum} {work pairs : List (Value × Value)} {out : Except Mismatch Unit × Store}
  {s : Store} {right : Value}

namespace Store

open Comparison

variable {P : Value → Prop} {seen : List (RecordId × RecordId)}

/-! ### Extensions of a store -/

/-- What is bound stays bound to the same datum, and variables that stand for each other still
do. -/
structure ExtendedBy (s t : Store) : Prop where
  slots : s.slots.size ≤ t.slots.size
  records : s.records.size ≤ t.records.size
  record : ∀ id < s.records.size, t.record id = s.record id
  bound : ∀ v < s.slots.size, ∀ d, s.datum? v = some d → t.datum? v = some d
  aliased : ∀ v < s.slots.size, ∀ w < s.slots.size, s.root v = s.root w → t.root v = t.root w

section Extension

variable {t u : Store}
variable {v w x : VarId}

theorem datum?_eq_some_iff :
  s.datum? v = some d ↔ s.resolve (.var v) = .datum d
  := by
  simp only [datum?, resolve]
  split
  · simp
  · simp

theorem resolve_eq_of_root_eq (h : s.root v = s.root w) :
  s.resolve (.var v) = s.resolve (.var w)
  := by
  simp only [resolve, h]

theorem resolve_var_eq (h : s.resolve (.var v) = .var x) :
  x = s.root v
  := by
  simp only [resolve] at h
  split at h
  · cases h
  · cases h
    rfl

theorem ExtendedBy.refl (s : Store) :
  s.ExtendedBy s where
  slots := Nat.le_refl _
  records := Nat.le_refl _
  record _ _ := rfl
  bound _ _ _ h := h
  aliased _ _ _ _ h := h

theorem ExtendedBy.trans (h : s.ExtendedBy t) (h' : t.ExtendedBy u) :
  s.ExtendedBy u where
  slots := Nat.le_trans h.slots h'.slots
  records := Nat.le_trans h.records h'.records
  record id hid := by
    rw [h'.record id (Nat.lt_of_lt_of_le hid h.records), h.record id hid]
  bound v hv d hd := by
    apply h'.bound v (Nat.lt_of_lt_of_le hv h.slots) d
    apply h.bound v hv d hd
  aliased v hv w hw hvw := by
    apply h'.aliased v (Nat.lt_of_lt_of_le hv h.slots) w (Nat.lt_of_lt_of_le hw h.slots)
    apply h.aliased v hv w hw hvw

theorem ExtendedBy.within (h : s.ExtendedBy t) {v : Value} (hv : v.Within s) :
  v.Within t
  := by
  rcases v with v | (a | _)
  · apply Nat.lt_of_lt_of_le hv h.slots
  · trivial
  · apply Nat.lt_of_lt_of_le hv h.records

theorem ExtendedBy.resolve_resolve (h : s.ExtendedBy t) (hs : s.WellFormed) {v : Value} (hv : v.Within s) :
  t.resolve (s.resolve v) = t.resolve v
  := by
  cases v with
  | datum => rfl
  | var v =>
    cases hr : s.resolve (.var v) with
    | datum d =>
      have := h.bound v hv d (datum?_eq_some_iff.mpr hr)
      rw [datum?_eq_some_iff.mp this]
      rfl
    | var x =>
      apply resolve_eq_of_root_eq
      have hwithin : (Value.var x).Within s := hr ▸ hs.resolve_within hv
      apply h.aliased x hwithin v hv
      have hx := hs.unbound_of_resolve hv hr
      rw [← resolve_var_eq (resolve_of_unbound hx), resolve_var_eq hr]

theorem ExtendedBy.resolve_eq_datum (h : s.ExtendedBy t) (hs : s.WellFormed) {v : Value} (hv : v.Within s) (hd : s.resolve v = .datum d) :
  t.resolve v = .datum d
  := by
  rw [← h.resolve_resolve hs hv, hd]
  rfl

end Extension

/-! ### Assigning one side of a pair to the other -/

/-- The pair stands for a variable and another value. -/
structure Assigns (s : Store) (left right : Value) (x : VarId) (w : Value) : Prop where
  heads : s.resolve left = .var x ∧ s.resolve right = w ∨ s.resolve left = w ∧ s.resolve right = .var x
  ne : w ≠ .var x

section Assigns

variable {left w v : Value} {x : VarId}

section

variable (h : s.Assigns left right x w) (hs : s.WellFormed) (hl : left.Within s) (hr : right.Within s)

include h hs hl hr

theorem Assigns.unbound :
  s.slots[x]? = some .unbound
  := by
  rcases h.heads with ⟨hx, -⟩ | ⟨-, hx⟩
  · apply hs.unbound_of_resolve hl hx
  · apply hs.unbound_of_resolve hr hx

theorem Assigns.resolved :
  s.resolve w = w ∧ w.Within s
  := by
  rcases h.heads with ⟨-, rfl⟩ | ⟨rfl, -⟩
  · exact ⟨hs.resolve_resolve hr, hs.resolve_within hr⟩
  · exact ⟨hs.resolve_resolve hl, hs.resolve_within hl⟩

theorem Assigns.wellFormed :
  (s.assign x w).WellFormed
  := by
  obtain ⟨hw, hwithin⟩ := h.resolved hs hl hr
  apply hs.assign (h.unbound hs hl hr) hw hwithin h.ne

theorem Assigns.resolve_eq (hv : v.Within s) :
  (s.assign x w).resolve v = if s.resolve v = .var x then w else s.resolve v
  := by
  obtain ⟨hw, hwithin⟩ := h.resolved hs hl hr
  apply hs.resolve_assign (h.unbound hs hl hr) hw hwithin h.ne hv

theorem Assigns.resolve_sides :
  (s.assign x w).resolve left = w ∧ (s.assign x w).resolve right = w
  := by
  rw [h.resolve_eq hs hl hr hl, h.resolve_eq hs hl hr hr]
  rcases h.heads with ⟨hx, hw⟩ | ⟨hw, hx⟩
  all_goals
    rw [hx, hw, if_pos rfl, if_neg h.ne]
    exact ⟨rfl, rfl⟩

theorem Assigns.extendedBy :
  s.ExtendedBy (s.assign x w)
  := by
  refine ⟨by simp, by simp, by simp, ?_, ?_⟩
  · intro v hv d hd
    rw [datum?_eq_some_iff] at hd ⊢
    rw [h.resolve_eq hs hl hr (v := .var v) hv, hd, if_neg (by simp)]
  · intro v hv v' hv' hroot
    obtain ⟨n, r, hlead⟩ := hs.leads v hv
    obtain ⟨_, _, hlead'⟩ := hs.leads v' hv'
    rw [hlead.root_eq, hlead'.root_eq] at hroot
    subst hroot
    obtain ⟨hw, hwithin⟩ := h.resolved hs hl hr
    obtain ⟨_, -, hall⟩ := leads_assign hs (h.unbound hs hl hr) hw hwithin h.ne hlead.ends
    obtain ⟨_, hm⟩ := hall hlead
    obtain ⟨_, hm'⟩ := hall hlead'
    rw [hm.root_eq, hm'.root_eq]

end

end Assigns

/-! ### Sets of values that unification stays in -/

theorem Closed.assign (hP : s.Closed P) (hs : s.WellFormed) {left w : Value} {x : VarId}
    (h : s.Assigns left right x w) (hl : P left) (hr : P right) :
  (s.assign x w).WellFormed ∧ (s.assign x w).Closed P
  := by
  have hw : P w := by
    rcases h.heads with ⟨-, rfl⟩ | ⟨rfl, -⟩
    · apply hP.resolve right hr
    · apply hP.resolve left hl
  refine ⟨h.wellFormed hs (hP.within _ hl) (hP.within _ hr), ?_, ?_, ?_⟩
  · intro v hv
    apply within_assign.mpr (hP.within v hv)
  · intro v hv
    rw [h.resolve_eq hs (hP.within left hl) (hP.within right hr) (hP.within v hv)]
    split
    · apply hw
    · apply hP.resolve v hv
  · intro id hid v hv
    rw [record_assign] at hv
    apply hP.fields id hid v hv

/-! ### What unification does -/

/-- Unification of the pairs of `work` ends with a result. -/
inductive Unifying : Store → List (RecordId × RecordId) → List (Value × Value) →
    Except Mismatch Unit × Store → Prop where
  | done {s : Store} {seen : List (RecordId × RecordId)} : Unifying s seen [] (.ok (), s)
  | agree {s seen left right work out}
      (h : equality.Agrees s seen (fun _ _ => False) (s.resolve left) (s.resolve right))
      (rest : Unifying s seen work out) : Unifying s seen ((left, right) :: work) out
  | assign {s seen left right w x work out} (h : s.Assigns left right x w)
      (rest : Unifying (s.assign x w) seen work out) : Unifying s seen ((left, right) :: work) out
  | expand {s seen left right a b pairs work out} (ha : s.resolve left = .datum (.record a))
      (hb : s.resolve right = .datum (.record b)) (hne : a ≠ b)
      (hpairs : (s.record a).fieldPairs? (s.record b) = some pairs)
      (rest : Unifying s ((a, b) :: seen) (pairs.reverse ++ work) out) :
      Unifying s seen ((left, right) :: work) out
  | clash {s seen left right d e work m} (hd : s.resolve left = .datum d)
      (he : s.resolve right = .datum e) (h : ∀ R, ¬ equality.Agrees s [] R (.datum d) (.datum e)) :
      Unifying s seen ((left, right) :: work) (.error m, s)

/-- The pairs of `work` are pairs of values in a set. -/
def PairsIn (P : Value → Prop) (work : List (Value × Value)) : Prop :=
  ∀ p ∈ work, P p.1 ∧ P p.2

theorem pairsIn_cons {left : Value} :
  PairsIn P ((left, right) :: work) ↔ (P left ∧ P right) ∧ PairsIn P work
  := List.forall_mem_cons

/-- Unification keeps what the assignment of variables keeps. -/
theorem unifyAll_invariant {I : Store → Prop} (hresolve : ∀ s, I s → ∀ v, P v → P (s.resolve v))
    (hfields : ∀ s, I s → ∀ id, ∀ v ∈ (s.record id).values, P v)
    (hassign : ∀ s, I s → ∀ x, P (.var x) → ∀ w, P w → I (s.assign x w))
    (h : I s) (seen : List (RecordId × RecordId)) (hwork : PairsIn P work) :
  I (s.unifyAll seen work).2
  := by
  fun_induction unifyAll s seen work with
  | case1 | case7 | case9 | case11 | case12 => exact h
  | case2 s _ _ _ _ x hr hl ih | case6 s _ _ _ _ a b hr hl _ ih
  | case8 s _ _ _ _ a b hr hl _ ih => exact ih h (pairsIn_cons.mp hwork).2
  | case3 s _ left right _ x y hr hl _ ih
  | case4 s _ left right _ x d hr hl ih =>
    obtain ⟨⟨hleft, hright⟩, hrest⟩ := pairsIn_cons.mp hwork
    have hx := hresolve s h left hleft
    have hw := hresolve s h right hright
    rw [hl] at hx
    rw [hr] at hw
    exact ih (hassign s h x hx _ hw) hrest
  | case5 s _ left right _ d x hr hl ih =>
    obtain ⟨⟨hleft, hright⟩, hrest⟩ := pairsIn_cons.mp hwork
    have hx := hresolve s h right hright
    have hw := hresolve s h left hleft
    rw [hr] at hx
    rw [hl] at hw
    exact ih (hassign s h x hx _ hw) hrest
  | case10 s _ _ _ _ a b hr hl _ _ hpairs _ ih =>
    refine ih h (List.forall_mem_append.mpr ⟨fun p hp => ?_, (pairsIn_cons.mp hwork).2⟩)
    obtain ⟨hleft, hright⟩ := equality_fieldWise _ _ _ hpairs p (List.mem_reverse.mp hp)
    exact ⟨hfields s h a _ hleft, hfields s h b _ hright⟩

theorem Closed.pairsIn_fields (hP : s.Closed P) {a b : RecordId} (ha : P (.datum (.record a)))
    (hb : P (.datum (.record b))) (hpairs : (s.record a).fieldPairs? (s.record b) = some pairs)
    (hwork : PairsIn P work) :
  PairsIn P (pairs.reverse ++ work)
  := by
  refine List.forall_mem_append.mpr ⟨fun p hp => ?_, hwork⟩
  have hmem := equality_fieldWise _ _ _ hpairs p (List.mem_reverse.mp hp)
  exact ⟨hP.fields a ha _ hmem.1, hP.fields b hb _ hmem.2⟩

theorem Closed.record_lt (hP : s.Closed P) {v : Value} {id : RecordId} (hv : P v)
    (h : s.resolve v = .datum (.record id)) :
  id < s.records.size
  := by
  have hwithin := hP.within _ (hP.resolve _ hv)
  rwa [h] at hwithin

theorem unifying_unifyAll (hs : s.WellFormed) (hP : s.Closed P)
    (seen : List (RecordId × RecordId)) (hwork : PairsIn P work) :
  Unifying s seen work (s.unifyAll seen work)
  := by
  fun_induction unifyAll s seen work with
  | case1 => apply Unifying.done
  | case2 s _ _ _ _ x hr hl ih =>
    apply Unifying.agree _ (ih hs hP (pairsIn_cons.mp hwork).2)
    rw [hl, hr]
    apply equality_agrees_self
    simp
  | case3 s _ left right _ x y hr hl hne ih =>
    obtain ⟨⟨hPl, hPr⟩, hrest⟩ := pairsIn_cons.mp hwork
    have hassigns : s.Assigns left right x (.var y) := ⟨.inl ⟨hl, hr⟩, by simpa using Ne.symm hne⟩
    obtain ⟨hs', hP'⟩ := hP.assign hs hassigns hPl hPr
    apply Unifying.assign hassigns (ih hs' hP' hrest)
  | case4 s _ left right _ x d hr hl ih | case5 s _ left right _ d x hr hl ih =>
    obtain ⟨⟨hPl, hPr⟩, hrest⟩ := pairsIn_cons.mp hwork
    have hassigns : s.Assigns left right x (.datum d) := ⟨by simp [hl, hr], by simp⟩
    obtain ⟨hs', hP'⟩ := hP.assign hs hassigns hPl hPr
    apply Unifying.assign hassigns (ih hs' hP' hrest)
  | case6 s _ _ _ _ a b hr hl hsame ih =>
    apply Unifying.agree _ (ih hs hP (pairsIn_cons.mp hwork).2)
    rw [hl, hr]
    apply Agrees.scalar hsame
  | case7 s _ _ _ _ a b hr hl hsame =>
    apply Unifying.clash hl hr
    intro R h
    apply hsame (agrees_scalar_iff.mp h)
  | case8 s _ _ _ _ a b hr hl hseen ih =>
    apply Unifying.agree _ (ih hs hP (pairsIn_cons.mp hwork).2)
    rw [hl, hr]
    rcases hseen with rfl | hseen
    · apply Agrees.identical
    · apply Agrees.expanded (List.contains_iff_mem.mp hseen)
  | case9 s _ _ _ _ a b hr hl hseen hnone =>
    apply Unifying.clash hl hr
    intro R h
    rcases agrees_record_iff.mp h with rfl | ⟨_, hsome, -⟩
    · apply hseen (Or.inl rfl)
    · cases hnone.symm.trans hsome
  | case10 s _ _ _ _ a b hr hl hseen _ hpairs _ ih =>
    obtain ⟨⟨hPl, hPr⟩, hrest⟩ := pairsIn_cons.mp hwork
    have hne : a ≠ b := by
      intro hab
      apply hseen (Or.inl hab)
    apply Unifying.expand hl hr hne hpairs
    apply ih hs hP
    apply hP.pairsIn_fields (hl ▸ hP.resolve _ hPl) (hr ▸ hP.resolve _ hPr) hpairs hrest
  | case11 s _ _ _ _ a b hr hl _ _ _ hlt =>
    obtain ⟨⟨hPl, hPr⟩, -⟩ := pairsIn_cons.mp hwork
    exact (hlt ⟨hP.record_lt hPl hl, hP.record_lt hPr hr⟩).elim
  | case12 s _ _ _ _ d e hscalar hrecord hr hl =>
    apply Unifying.clash hl hr
    intro R h
    rcases h.data_cases with ⟨a, b, rfl, rfl⟩ | ⟨a, b, rfl, rfl⟩
    · apply hscalar a b rfl rfl
    · apply hrecord a b rfl rfl

theorem Unifying.extendedBy
    (h : Unifying s seen work out) (hs : s.WellFormed) (hP : s.Closed P) (hwork : PairsIn P work) :
  s.ExtendedBy out.2 ∧ out.2.WellFormed ∧ out.2.Closed P
  := by
  induction h with
  | done | clash _ _ _ => exact ⟨ExtendedBy.refl _, hs, hP⟩
  | agree _ _ ih => apply ih hs hP (pairsIn_cons.mp hwork).2
  | assign hassigns _ ih =>
    obtain ⟨⟨hPl, hPr⟩, hrest⟩ := pairsIn_cons.mp hwork
    obtain ⟨hs', hP'⟩ := hP.assign hs hassigns hPl hPr
    obtain ⟨hext, hout⟩ := ih hs' hP' hrest
    exact ⟨(hassigns.extendedBy hs (hP.within _ hPl) (hP.within _ hPr)).trans hext, hout⟩
  | expand ha hb _ hpairs _ ih =>
    obtain ⟨⟨hPl, hPr⟩, hrest⟩ := pairsIn_cons.mp hwork
    apply ih hs hP
    apply hP.pairsIn_fields (ha ▸ hP.resolve _ hPl) (hb ▸ hP.resolve _ hPr) hpairs hrest

/-! ### The values are equal afterwards -/

theorem ExtendedBy.agrees {t : Store} (h : s.ExtendedBy t) (hs : s.WellFormed)
    {R : Value → Value → Prop} {left : Value} (hl : left.Within s) (hr : right.Within s)
    (hnan : ∀ p, t.resolve left = .datum (.scalar p) → ¬ p.IsNaN)
    (hagree : equality.Agrees s seen (fun _ _ => False) (s.resolve left) (s.resolve right)) :
  equality.Agrees t seen R (t.resolve left) (t.resolve right)
  := by
  have hleft := h.resolve_resolve hs hl
  have hright := h.resolve_resolve hs hr
  have hwithin := hs.resolve_within hl
  have hwithin' := hs.resolve_within hr
  rw [← hleft] at hnan ⊢
  rw [← hright]
  generalize s.resolve left = a at *
  generalize s.resolve right = b at *
  cases hagree with
  | «variable» hv hwaits =>
    rw [waits_equality_iff hv] at hwaits
    subst hwaits
    apply equality_agrees_self hnan
  | scalar hsame => apply Agrees.scalar hsame
  | identical => apply Agrees.identical
  | expanded hseen => apply Agrees.expanded hseen
  | fields hpairs hrel =>
    apply Agrees.fields
    · rw [h.record _ hwithin, h.record _ hwithin', hpairs]
    · intro p hp
      exfalso
      apply hrel p hp

theorem Unifying.related (h : Unifying s seen work out) (hs : s.WellFormed) (hP : s.Closed P) (hwork : PairsIn P work)
    (hnan : ∀ p, P (.datum (.scalar p)) → ¬ p.IsNaN) (hok : out.1 = .ok ()) :
  equality.Related out.2 seen work
  := by
  induction h with
  | done =>
    refine ⟨fun _ _ => False, ?_, ?_⟩
    · intro _ _ hf
      cases hf
    · simp
  | @agree s _ _ _ _ _ hagree rest ih =>
    obtain ⟨⟨hPl, hPr⟩, hrest⟩ := pairsIn_cons.mp hwork
    obtain ⟨hext, -, hPout⟩ := rest.extendedBy hs hP hrest
    apply Related.cons _ (ih hs hP hrest hok)
    intro R _
    apply hext.agrees hs (hP.within _ hPl) (hP.within _ hPr) _ hagree
    intro p hp
    apply hnan p (hp ▸ hPout.resolve _ hPl)
  | @assign s _ left right w x _ out hassigns rest ih =>
    obtain ⟨⟨hPl, hPr⟩, hrest⟩ := pairsIn_cons.mp hwork
    obtain ⟨hs', hP'⟩ := hP.assign hs hassigns hPl hPr
    obtain ⟨hext, -, hPout⟩ := rest.extendedBy hs' hP' hrest
    apply Related.cons _ (ih hs' hP' hrest hok)
    intro R _
    have hsides := hassigns.resolve_sides hs (hP.within _ hPl) (hP.within _ hPr)
    have heq : out.2.resolve left = out.2.resolve right := by
      rw [← hext.resolve_resolve hs' (hP'.within _ hPl),
        ← hext.resolve_resolve hs' (hP'.within _ hPr), hsides.1, hsides.2]
    rw [← heq]
    apply equality_agrees_self
    intro p hp
    apply hnan p (hp ▸ hPout.resolve _ hPl)
  | @expand s seen left right a b pairs work out ha hb _ hpairs rest ih =>
    obtain ⟨⟨hPl, hPr⟩, hrest⟩ := pairsIn_cons.mp hwork
    have hPa := ha ▸ hP.resolve _ hPl
    have hPb := hb ▸ hP.resolve _ hPr
    have hwork' := hP.pairsIn_fields hPa hPb hpairs hrest
    obtain ⟨hext, -, -⟩ := rest.extendedBy hs hP hwork'
    have hpairs' : equality.fields? (out.2.record a) (out.2.record b) = some pairs := by
      rw [hext.record a (hP.within _ hPa), hext.record b (hP.within _ hPb)]
      apply hpairs
    have hsub : pairs ⊆ pairs.reverse ++ work := by
      intro p hp
      simp [hp]
    have hall : equality.Related out.2 seen ((left, right) :: (pairs.reverse ++ work)) := by
      apply Related.cons _ ((ih hs hP hwork' hok).discharge hpairs' hsub)
      intro R hR
      rw [hext.resolve_eq_datum hs (hP.within _ hPl) ha, hext.resolve_eq_datum hs (hP.within _ hPr) hb]
      apply Agrees.fields hpairs'
      intro p hp
      apply hR p (hsub hp)
    apply hall.of_subset
    simp
  | clash => cases hok

theorem unify_unbound {v : VarId} (hv : s.slots[v]? = some .unbound) (d : Datum) :
  s.unify (.var v) (.datum d) = (.ok (), s.setSlot v (.bound d))
  := by
  have hdatum : s.resolve (.datum d) = .datum d := rfl
  rw [unify, unifyAll, resolve_of_unbound hv]
  exact unifyAll.eq_1 _ _

end Store

end ActorLang
