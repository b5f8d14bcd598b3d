import ActorLang.Proofs.Store.Growth

/-!
# Ground values

A value is ground if it leads to no unbound variable.  Comparisons of ground values are decided.
A store grows when variables are added for values that it has already; this changes no
comparison, since comparisons only depend on what values resolve to.
-/

namespace ActorLang

open Comparison List

theorem Record.mem_values_of_get? {r : Record} {f : Feature} {field : Leaf} (h : r.get? f = some field) :
  field.toValue ∈ r.values
  := by
  obtain ⟨⟨g, w⟩, hfind, rfl⟩ := Option.map_eq_some_iff.mp h
  apply mem_map_of_mem (mem_of_find?_eq_some hfind)

theorem Comparison.entailedFields?_eq_some_iff {r r' : Record} {pairs : List (Value × Value)} :
  entailedFields? r r' = some pairs ↔ r.label = r'.label ∧ (∀ field ∈ r.fields, (r'.get? field.1).isSome) ∧
    r.fields.map (fun field => (field.2.toValue, ((r'.get? field.1).getD default).toValue)) = pairs
  := by
  rw [entailedFields?]
  split
  case isTrue hlabel =>
    simp only [hlabel]
    induction r.fields generalizing pairs with
    | nil => simp
    | cons field _ ih =>
      cases hget : r'.get? field.1 with
      | none => simp [hget]
      | some => simp [hget, Option.bind_eq_some_iff, ih]
  case isFalse hlabel => simp [hlabel]

theorem Comparison.entailment_fieldWise :
  entailment.FieldWise
  := by
  intro r _ _ h p hp
  obtain ⟨-, hsome, rfl⟩ := entailedFields?_eq_some_iff.mp h
  obtain ⟨field, hfield, rfl⟩ := mem_map.mp hp
  obtain ⟨w, hw⟩ := Option.isSome_iff_exists.mp (hsome field hfield)
  rw [hw]
  exact ⟨mem_map_of_mem hfield, Record.mem_values_of_get? hw⟩

variable {c : Comparison} {seen : List (RecordId × RecordId)} {waiting : Option VarId}
  {work work' : List (Value × Value)} {v left right : Value} {x : VarId} {s : Store}

namespace Store

/-- The value leads to no unbound variable. -/
def Ground (s : Store) (v : Value) : Prop :=
  ∀ w, s.Reaches v w → ∃ d, s.resolve w = .datum d

section Ground

variable {v w : Value}

theorem Ground.of_reaches (h : s.Ground v) (hw : s.Reaches v w) :
  s.Ground w
  := by
  intro u hu
  apply h u (hw.trans hu)

theorem Ground.field {id : RecordId} (h : s.Ground v) (hid : s.resolve v = .datum (.record id))
    (hw : w ∈ (s.record id).values) :
  s.Ground w
  := by
  apply h.of_reaches
  apply Reaches.field _ hw
  rw [← hid]
  apply Reaches.self.resolve

theorem compareAll_decided (hc : c.FieldWise) {P : Value → Value → Prop}
    (hfields : ∀ v w a b, P v w → s.resolve v = .datum (.record a) → s.resolve w = .datum (.record b) →
      ∀ v' ∈ (s.record a).values, ∀ w' ∈ (s.record b).values, P v' w')
    (hwaits : ∀ v w, P v w → (∀ d e, s.resolve v = .datum d → s.resolve w ≠ .datum e) →
      c.waits (s.resolve v) (s.resolve w) = none)
    (hwaiting : waiting = none) (hwork : ∀ p ∈ work, P p.1 p.2) :
  ∃ b, s.compareAll c seen waiting work = .ok b
  := by
  have hcases := s.compareAll_cases c seen waiting (D := True) (W := fun _ => False) ?_ ?_ ?_ (by simp [hwaiting]) hwork
  · rcases hcases with h | ⟨h, -⟩ | ⟨_, -, ⟨⟩⟩
    · exact ⟨true, h⟩
    · exact ⟨false, h⟩
  · intro v w a b hvw ha hb _ _ hpairs p hp
    have hmem := hc _ _ _ hpairs p hp
    exact hfields v w a b hvw ha hb _ hmem.1 _ hmem.2
  · exact fun _ _ _ _ _ _ _ _ => trivial
  · intro v w x hvw hdatum hx
    cases (hwaits v w hvw hdatum).symm.trans hx

theorem equals_of_ground (hv : s.Ground v) (hw : s.Ground w) :
  ∃ b, s.equals v w = .ok b
  := by
  apply compareAll_decided equality_fieldWise (P := fun v w => s.Ground v ∧ s.Ground w) _ _ rfl (by simp [hv, hw])
  · rintro v w a b ⟨hv, hw⟩ ha hb _ hv' _ hw'
    exact ⟨hv.field ha hv', hw.field hb hw'⟩
  · rintro v w ⟨hv, hw⟩ hdatum
    obtain ⟨d, hd⟩ := hv v Reaches.self
    obtain ⟨e, he⟩ := hw w Reaches.self
    exact absurd he (hdatum d e hd)

/-- A variable that is not bound entails everything, so that only the entailed value has to be ground. -/
theorem entails_of_ground (hw : s.Ground w) :
  ∃ b, s.entails v w = .ok b
  := by
  apply compareAll_decided entailment_fieldWise (P := fun _ w => s.Ground w) _ _ rfl (by simpa using hw)
  · intro v w a b hw _ hb _ _ _ hw'
    exact hw.field hb hw'
  · intro v w hw hdatum
    obtain ⟨e, he⟩ := hw w Reaches.self
    cases hv : s.resolve v with
    | var => rfl
    | datum d => exact absurd he (hdatum d e hv)

end Ground

/-! ### Growth -/

/-- The other store has the same records, and what was there resolves as before. -/
structure GrownTo (s t : Store) : Prop where
  wellFormed : t.WellFormed
  records : t.records = s.records
  slots : s.slots.size ≤ t.slots.size
  resolve : ∀ v, v.Within s → t.resolve v = s.resolve v

section Growth

variable {t u : Store}

theorem WellFormed.grownTo_self (hs : s.WellFormed) :
  s.GrownTo s where
  wellFormed := hs
  records := rfl
  slots := Nat.le_refl _
  resolve _ _ := rfl

theorem GrownTo.within (h : s.GrownTo t) (hv : v.Within s) :
  v.Within t
  := by
  rcases v with v | (a | _)
  · apply Nat.lt_of_lt_of_le hv h.slots
  · trivial
  · simpa only [Value.Within, h.records] using hv

theorem GrownTo.trans (h : s.GrownTo t) (h' : t.GrownTo u) :
  s.GrownTo u where
  wellFormed := h'.wellFormed
  records := h'.records.trans h.records
  slots := Nat.le_trans h.slots h'.slots
  resolve v hv := (h'.resolve v (h.within hv)).trans (h.resolve v hv)

theorem GrownTo.record_eq (h : s.GrownTo t) (id : RecordId) :
  t.record id = s.record id
  := by
  rw [record, record, h.records]

theorem GrownTo.compareAll_eq (h : s.GrownTo t) (hs : s.WellFormed) (hc : c.FieldWise)
    (hwork : Forall₂ (fun p q => t.resolve p.1 = s.resolve q.1 ∧ t.resolve p.2 = s.resolve q.2) work' work) :
  t.compareAll c seen waiting work' = s.compareAll c seen waiting work
  := by
  fun_induction compareAll s c seen waiting work generalizing work' with
  | case1 | case2 =>
    cases hwork
    rw [compareAll]
  | case3 | case4 | case5 | case6 | case9 =>
    cases hwork with
    | cons =>
      rw [compareAll]
      simp_all [h.record_eq]
  | case8 _ _ _ _ _ a b hb ha hseen _ hpairs hlt =>
    cases hwork with
    | cons hp =>
      rw [compareAll, hp.1, hp.2, ha, hb]
      simp only [hseen, if_false, h.record_eq, hpairs, h.records, hlt, dite_false]
  | case7 _ _ _ _ _ a b hb ha hseen _ hpairs hlt ih =>
    cases hwork with
    | cons hp hrest =>
      rw [compareAll, hp.1, hp.2, ha, hb]
      simp only [hseen, h.record_eq, hpairs, h.records, hlt]
      apply ih
      apply rel_append _ hrest
      rw [forall₂_same]
      intro p hmem
      have hfields := hc _ _ _ hpairs p (mem_reverse.mp hmem)
      constructor
      · apply h.resolve _ (hs.fields a _ hfields.1)
      · apply h.resolve _ (hs.fields b _ hfields.2)
  | case10 _ _ _ _ _ _ _ _ ih =>
    cases hwork with
    | cons hp hrest =>
      rw [compareAll, hp.1, hp.2]
      split
      · simp_all
      · simp_all
      · simp_all
      · apply ih hrest

theorem WellFormed.newSlot (hs : s.WellFormed) {slot : Slot} (hlink : ∀ w, slot = .link w → w < s.slots.size)
    (hbound : ∀ d, slot = .bound d → (Value.datum d).Within s) :
  s.GrownTo (s.newSlot slot).2
  := by
  have hcontinued := ContinuedBy.newSlot s slot
  have hext := hcontinued.extendedBy hs
  have hself : (s.newSlot slot).2.slots[s.slots.size]? = some slot := by
    simp [Store.newSlot]
  refine ⟨⟨?_, ?_, ?_⟩, rfl, hext.slots, ?_⟩
  · intro v hv
    by_cases hlt : v < s.slots.size
    · obtain ⟨n, r, hlead⟩ := hs.leads v hlt
      exact ⟨n, r, ContinuedBy.leads hcontinued.slots hlead⟩
    · have hv : v = s.slots.size := by
        simp only [Store.newSlot, Array.size_push] at hv
        omega
      subst hv
      cases slot with
      | link w =>
        obtain ⟨n, r, hlead⟩ := hs.leads w (hlink w rfl)
        exact ⟨n + 1, r, .link hself (ContinuedBy.leads hcontinued.slots hlead)⟩
      | unbound | bound => exact ⟨0, _, .stop hself (by simp)⟩
  · intro v e he
    rw [Store.newSlot, Array.getElem?_push] at he
    split at he
    · cases he
      exact hext.within (hbound e rfl)
    · exact hext.within (hs.bound v e he)
  · intro id v hv
    exact hext.within (hs.fields id v hv)
  · intro v hv
    cases v with
    | datum => rfl
    | var v =>
      obtain ⟨n, r, hlead⟩ := hs.leads v hv
      have hlead' := ContinuedBy.leads hcontinued.slots hlead
      rw [hlead.resolve_eq, hlead'.resolve_eq]
      rcases hlead.slot_end with hr | ⟨e, hr⟩
      · rw [resolve_of_unbound hr, resolve_of_unbound (ContinuedBy.getElem?_eq hcontinued.slots hr)]
      · rw [resolve_of_bound hr, resolve_of_bound (ContinuedBy.getElem?_eq hcontinued.slots hr)]

theorem WellFormed.newBound (hs : s.WellFormed) (hv : v.Within s) :
  s.GrownTo (s.newBound v).2 ∧ (Value.var (s.newBound v).1).Within (s.newBound v).2 ∧
    (s.newBound v).2.resolve (.var (s.newBound v).1) = s.resolve v
  := by
  cases v with
  | var v =>
    obtain ⟨n, r, hlead⟩ := hs.leads v hv
    rw [Store.newBound, hlead.root_eq]
    exact ⟨hs.grownTo_self, hlead.ends.lt_size, hlead.resolve_eq.symm⟩
  | datum d =>
    have hself : (s.newSlot (.bound d)).2.slots[s.slots.size]? = some (.bound d) := by
      simp [Store.newSlot]
    refine ⟨hs.newSlot (by simp) ?_, ?_, ?_⟩
    · rintro _ ⟨⟩
      exact hv
    · simp [Store.newBound, Store.newSlot, Value.Within]
    · apply resolve_of_bound hself

end Growth

/-! ### Waiting -/

section Waiting

theorem unbound_of_compareAll (hs : s.WellFormed) (hc : c.FieldWise)
    (hwaits : ∀ a b x, c.waits a b = some x → a = .var x ∨ b = .var x)
    (hwaiting : ∀ x, waiting = some x → s.slots[x]? = some .unbound)
    (hwork : ∀ p ∈ work, p.1.Within s ∧ p.2.Within s) (h : s.compareAll c seen waiting work = .error x) :
  s.slots[x]? = some .unbound
  := by
  have hcases := s.compareAll_cases c seen waiting (P := fun v w => v.Within s ∧ w.Within s) (D := True) ?_ ?_ ?_
    hwaiting hwork
  · rcases hcases with hok | ⟨hok, -⟩ | ⟨y, herror, hy⟩
    · cases hok.symm.trans h
    · cases hok.symm.trans h
    · cases herror.symm.trans h
      exact hy
  · intro v w a b _ _ _ _ _ hpairs p hp
    obtain ⟨hleft, hright⟩ := hc _ _ _ hpairs p hp
    exact ⟨hs.fields a _ hleft, hs.fields b _ hright⟩
  · exact fun _ _ _ _ _ _ _ _ => trivial
  · rintro v w y ⟨hv, hw⟩ - hy
    rcases hwaits _ _ y hy with hy | hy
    · exact hs.unbound_of_resolve hv hy
    · exact hs.unbound_of_resolve hw hy

theorem unbound_of_equals (hs : s.WellFormed) (hl : left.Within s)
    (hr : right.Within s) (h : s.equals left right = .error x) :
  s.slots[x]? = some .unbound
  := by
  refine unbound_of_compareAll hs Comparison.equality_fieldWise ?_ (fun y hy => by cases hy)
    (forall_mem_singleton.mpr ⟨hl, hr⟩) h
  intro a b y hy
  simp only [Comparison.equality] at hy
  split at hy
  · split at hy
    · cases hy
    · cases hy
      exact .inl rfl
  · cases hy
    exact .inl rfl
  · cases hy
    exact .inr rfl
  · cases hy

theorem unbound_of_entails (hs : s.WellFormed) (hl : left.Within s)
    (hr : right.Within s) (h : s.entails left right = .error x) :
  s.slots[x]? = some .unbound
  := by
  refine unbound_of_compareAll hs Comparison.entailment_fieldWise ?_ (fun y hy => by cases hy)
    (forall_mem_singleton.mpr ⟨hl, hr⟩) h
  intro a b y hy
  simp only [Comparison.entailment] at hy
  split at hy
  · cases hy
  · cases hy
    exact .inr rfl
  · cases hy

end Waiting

end Store

end ActorLang
