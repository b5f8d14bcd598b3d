import ActorLang.Store.Basic
import Mathlib.Data.List.Perm.Subperm

/-!
# Well-formed stores

A variable stands for the end of its chain of links.  In a well-formed store every chain ends, and
everything that is referred to exists.  `Leads` counts the links of a chain, which visits no
variable twice, so that `root` finds its end.  `assign` gives a value to a variable at the end of a
chain.
-/

namespace ActorLang

open List

/-! ### What exists in a store -/

/-- The value refers to nothing outside of the store. -/
def Value.Within (s : Store) : Value → Prop
  | .var v => v < s.slots.size
  | .datum (.record id) => id < s.records.size
  | .datum (.scalar _) => True

instance (s : Store) : (v : Value) → Decidable (v.Within s)
  | .var v => inferInstanceAs (Decidable (v < s.slots.size))
  | .datum (.record id) => inferInstanceAs (Decidable (id < s.records.size))
  | .datum (.scalar _) => .isTrue trivial

/-- The values in the fields of a record. -/
def Record.values (r : Record) : List Value := r.fields.map (·.2.toValue)

namespace Store

/-- `n` links lead from a variable to the end of its chain. -/
inductive Leads (s : Store) : Nat → VarId → VarId → Prop where
  | stop {r slot} (hr : s.slots[r]? = some slot) (hend : ∀ w, slot ≠ .link w) : Leads s 0 r r
  | link {n v w r} (hv : s.slots[v]? = some (.link w)) (rest : Leads s n w r) : Leads s (n + 1) v r

/-- Every chain of links ends, and everything that is referred to exists. -/
structure WellFormed (s : Store) : Prop where
  leads : ∀ v < s.slots.size, ∃ n r, s.Leads n v r
  bound : ∀ (v : VarId) (d : Datum), s.slots[v]? = some (.bound d) → (Value.datum d).Within s
  fields : ∀ id, ∀ v ∈ (s.record id).values, v.Within s

/-! ### The end of a chain -/

namespace Leads

variable {s : Store}
variable {n m : Nat} {v r q : VarId}

section

variable (h : s.Leads n v r)

include h

theorem lt_size :
  v < s.slots.size
  := by
  cases h with
  | stop hr => apply (Array.getElem?_eq_some_iff.mp hr).1
  | link hv => apply (Array.getElem?_eq_some_iff.mp hv).1

/-- The last variable of a chain leads to itself. -/
theorem ends :
  s.Leads 0 r r
  := by
  induction h with
  | stop hr hend => exact .stop hr hend
  | link _ _ ih => exact ih

theorem slot_end :
  s.slots[r]? = some .unbound ∨ ∃ d, s.slots[r]? = some (.bound d)
  := by
  cases h.ends with
  | @stop _ slot hr hend =>
    cases slot with
    | unbound => exact .inl hr
    | link w => exact (hend w rfl).elim
    | bound d => exact .inr ⟨d, hr⟩

theorem unique (h' : s.Leads m v q) :
  n = m ∧ r = q
  := by
  induction h generalizing m with
  | stop hr hend =>
    cases h' with
    | stop => exact ⟨rfl, rfl⟩
    | link hv _ =>
      rw [hr] at hv
      exfalso
      apply hend _ (Option.some.inj hv)
  | link hv _ ih =>
    cases h' with
    | stop hr hend =>
      rw [hr] at hv
      exfalso
      apply hend _ (Option.some.inj hv)
    | link hv' rest' =>
      rw [hv] at hv'
      cases hv'
      obtain ⟨rfl, rfl⟩ := ih rest'
      exact ⟨rfl, rfl⟩

theorem exists_visited :
  ∃ visited : List VarId, visited.Nodup ∧ visited.length = n ∧ ∀ x ∈ visited, ∃ m ≤ n, s.Leads m x r
  := by
  induction h with
  | stop =>
    simp
  | @link n v w r hv rest ih =>
    obtain ⟨visited, hnodup, hlength, hall⟩ := ih
    use v :: visited
    refine ⟨?_, by simp [hlength], ?_⟩
    · -- the others are closer to the end than `v`
      rw [nodup_cons]
      refine ⟨?_, hnodup⟩
      intro hmem
      obtain ⟨m, _, hlead⟩ := hall v hmem
      have := (hlead.unique (Leads.link hv rest)).1
      omega
    · intro x hx
      rcases mem_cons.mp hx with rfl | hx
      · use n + 1, Nat.le_refl _, Leads.link hv rest
      · obtain ⟨m, _, hlead⟩ := hall x hx
        use m, by omega, hlead

theorem length_le :
  n ≤ s.slots.size
  := by
  obtain ⟨visited, hnodup, hlength, hall⟩ := h.exists_visited
  have hsub : visited ⊆ List.range s.slots.size := by
    intro x hx
    obtain ⟨m, -, hlead⟩ := hall x hx
    apply mem_range.mpr hlead.lt_size
  have hle := (subperm_of_subset hnodup hsub).length_le
  rw [length_range, hlength] at hle
  apply hle

theorem follow_eq (hm : n ≤ m) :
  s.follow m v = r
  := by
  induction h generalizing m with
  | @stop r slot hr hend =>
    cases m with
    | zero => rfl
    | succ =>
      cases slot with
      | link w =>
        exfalso
        apply hend w rfl
      | unbound | bound => simp [follow, hr]
  | link hv _ ih =>
    cases m with
    | zero => omega
    | succ =>
      rw [follow, hv]
      apply ih
      omega

theorem root_eq :
  s.root v = r
  := h.follow_eq h.length_le

theorem resolve_eq :
  s.resolve (.var v) = s.resolve (.var r)
  := by
  simp only [resolve, h.root_eq, h.ends.root_eq]

end

end Leads

/-! ### Resolving -/

section Resolve

variable {s : Store} {x : VarId} {n : Nat} {v : Value}

theorem resolve_of_unbound (hx : s.slots[x]? = some .unbound) :
  s.resolve (.var x) = .var x
  := by
  simp only [resolve, (Leads.stop hx (by simp)).root_eq, hx]

theorem resolve_of_bound {d : Datum} (hx : s.slots[x]? = some (.bound d)) :
  s.resolve (.var x) = .datum d
  := by
  simp only [resolve, (Leads.stop hx (by simp)).root_eq, hx]

theorem WellFormed.unbound_of_resolve (hs : s.WellFormed) (hv : v.Within s) (h : s.resolve v = .var x) :
  s.slots[x]? = some .unbound
  := by
  cases v with
  | datum => cases h
  | var v =>
    obtain ⟨n, r, hlead⟩ := hs.leads v hv
    rw [hlead.resolve_eq] at h
    rcases hlead.slot_end with hr | ⟨d, hr⟩
    · rw [resolve_of_unbound hr] at h
      cases h
      exact hr
    · rw [resolve_of_bound hr] at h
      cases h

theorem WellFormed.resolve_resolve (hs : s.WellFormed) (hv : v.Within s) :
  s.resolve (s.resolve v) = s.resolve v
  := by
  cases h : s.resolve v with
  | datum => rfl
  | var => apply resolve_of_unbound (hs.unbound_of_resolve hv h)

theorem WellFormed.resolve_within (hs : s.WellFormed) (hv : v.Within s) :
  (s.resolve v).Within s
  := by
  cases v with
  | datum => apply hv
  | var v =>
    obtain ⟨n, r, hlead⟩ := hs.leads v hv
    rw [hlead.resolve_eq]
    rcases hlead.slot_end with hr | ⟨d, hr⟩
    · rw [resolve_of_unbound hr]
      exact hlead.ends.lt_size
    · rw [resolve_of_bound hr]
      exact hs.bound r d hr

theorem record_mem {id : RecordId} (h : v ∈ (s.record id).values) :
  s.record id ∈ s.records.toList
  := by
  rw [Array.mem_toList_iff]
  rw [record, Array.getD_eq_getD_getElem?] at h ⊢
  cases hid : s.records[id]? with
  | none => simp [hid, Record.values] at h
  | some => exact Array.mem_of_getElem? hid

/-- The slot is no link, and what it is bound to exists. -/
def EndsWithin (s : Store) : Slot → Prop
  | .unbound => True
  | .link _ => False
  | .bound d => (Value.datum d).Within s

instance (s : Store) : (slot : Slot) → Decidable (s.EndsWithin slot)
  | .unbound => .isTrue trivial
  | .link _ => .isFalse id
  | .bound d => inferInstanceAs (Decidable ((Value.datum d).Within s))

theorem WellFormed.of_no_link (hslots : ∀ slot ∈ s.slots.toList, s.EndsWithin slot)
    (hrecords : ∀ r ∈ s.records.toList, ∀ v ∈ r.values, v.Within s) :
  s.WellFormed
  := by
  have slot_mem {v : VarId} {slot : Slot} (h : s.slots[v]? = some slot) :
      slot ∈ s.slots.toList := by
    rw [Array.mem_toList_iff]
    apply Array.mem_of_getElem? h
  constructor
  · intro v hv
    have hslot := Array.getElem?_eq_getElem hv
    refine ⟨0, v, Leads.stop hslot ?_⟩
    rintro w hw
    exact (hw ▸ hslots _ (slot_mem hslot) : s.EndsWithin (.link w))
  · exact fun v d hd => hslots _ (slot_mem hd)
  · exact fun id v hv => hrecords _ (record_mem hv) v hv

end Resolve

/-! ### Assigning a variable -/

/-- The store in which a variable has been given a value. -/
def assign (s : Store) (x : VarId) : Value → Store
  | .var y => s.setSlot x (.link y)
  | .datum d => s.setSlot x (.bound d)

@[simp] theorem assign_records (s : Store) (x : VarId) (w : Value) :
  (s.assign x w).records = s.records
  := by
  cases w with
  | var | datum => rfl

@[simp] theorem assign_slots_size (s : Store) (x : VarId) (w : Value) :
  (s.assign x w).slots.size = s.slots.size
  := by
  cases w with
  | var | datum => simp [assign, setSlot]

@[simp] theorem record_assign (s : Store) (x : VarId) (w : Value) (id : RecordId) :
  (s.assign x w).record id = s.record id
  := by
  rw [record, record, assign_records]

theorem within_assign {s : Store} {x : VarId} {w v : Value} :
  v.Within (s.assign x w) ↔ v.Within s
  := by
  rcases v with v | (a | _)
  · simp [Value.Within]
  · simp [Value.Within]
  · simp [Value.Within]

section Assign

variable {s : Store} {x r y v : VarId} {n : Nat} {slot old : Slot}

theorem slots_setSlot_self (hx : s.slots[x]? = some old) :
  (s.setSlot x slot).slots[x]? = some slot
  := by
  have hlt := (Array.getElem?_eq_some_iff.mp hx).1
  rw [setSlot, Array.getElem?_setIfInBounds_self_of_lt hlt]

theorem slots_assign_of_ne {w : Value} (h : v ≠ x) :
  (s.assign x w).slots[v]? = s.slots[v]?
  := by
  cases w with
  | var | datum => exact Array.getElem?_setIfInBounds_ne h.symm

section

variable {w : Value} (hs : s.WellFormed) (hx : s.slots[x]? = some .unbound) (hw : s.resolve w = w)
  (hwithin : w.Within s) (hne : w ≠ .var x)

include hs hx hw hwithin hne

/-- Where a chain ends after an assignment depends only on where it ended before. -/
theorem leads_assign (hr : s.Leads 0 r r) :
  ∃ q, (s.assign x w).resolve (.var q) = (if r = x then w else s.resolve (.var r)) ∧
    ∀ {n v}, s.Leads n v r → ∃ m, (s.assign x w).Leads m v q
  := by
  obtain ⟨q, m, hq, hlead⟩ : ∃ q m, (s.assign x w).resolve (.var q) =
      (if r = x then w else s.resolve (.var r)) ∧ (s.assign x w).Leads m r q := by
    by_cases hrx : r = x
    · subst hrx
      rw [if_pos rfl]
      cases w with
      | datum d =>
        have hself : (s.setSlot r (.bound d)).slots[r]? = _ := slots_setSlot_self hx
        exact ⟨r, 0, resolve_of_bound hself, .stop hself (by simp)⟩
      | var y =>
        have hy : (s.assign r (.var y)).slots[y]? = some .unbound := by
          rw [slots_assign_of_ne fun h => hne (congrArg _ h), hs.unbound_of_resolve hwithin hw]
        exact ⟨y, 1, resolve_of_unbound hy, .link (slots_setSlot_self hx) (.stop hy (by simp))⟩
    · rw [if_neg hrx]
      have hslot := slots_assign_of_ne (s := s) (w := w) hrx
      rcases hr.slot_end with hr | ⟨d, hr⟩
      · rw [hr] at hslot
        exact ⟨r, 0, by rw [resolve_of_unbound hslot, resolve_of_unbound hr], .stop hslot (by simp)⟩
      · rw [hr] at hslot
        exact ⟨r, 0, by rw [resolve_of_bound hslot, resolve_of_bound hr], .stop hslot (by simp)⟩
  refine ⟨q, hq, fun h => ?_⟩
  induction h with
  | stop => exact ⟨m, hlead⟩
  | link hv _ ih =>
    obtain ⟨m, hm⟩ := ih hr hq hlead
    refine ⟨m + 1, .link ?_ hm⟩
    rw [slots_assign_of_ne, hv]
    rintro rfl
    cases hx.symm.trans hv

/-- What resolved to an assigned variable resolves to its value, and nothing else changes. -/
theorem WellFormed.resolve_assign {v : Value} (hv : v.Within s) :
  (s.assign x w).resolve v = if s.resolve v = .var x then w else s.resolve v
  := by
  cases v with
  | datum => simp [resolve]
  | var v =>
    obtain ⟨n, r, hlead⟩ := hs.leads v hv
    obtain ⟨q, hq, hall⟩ := leads_assign hs hx hw hwithin hne hlead.ends
    obtain ⟨m, hlead'⟩ := hall hlead
    rw [hlead'.resolve_eq, hq, hlead.resolve_eq]
    rcases hlead.slot_end with hr | ⟨d, hr⟩
    · rw [resolve_of_unbound hr]
      simp
    · have hrx : r ≠ x := by
        rintro rfl
        cases hx.symm.trans hr
      simp [resolve_of_bound hr, hrx]

theorem WellFormed.assign :
  (s.assign x w).WellFormed
  := by
  constructor
  · intro v hv
    rw [assign_slots_size] at hv
    obtain ⟨n, r, hlead⟩ := hs.leads v hv
    obtain ⟨q, -, hall⟩ := leads_assign hs hx hw hwithin hne hlead.ends
    obtain ⟨m, hlead'⟩ := hall hlead
    exact ⟨m, q, hlead'⟩
  · intro v d hd
    rw [within_assign]
    by_cases hvx : v = x
    · subst hvx
      cases w with
      | datum | var =>
        cases (slots_setSlot_self hx).symm.trans hd
        try exact hwithin
    · rw [slots_assign_of_ne hvx] at hd
      exact hs.bound v d hd
  · intro id v hv
    rw [record_assign] at hv
    rw [within_assign]
    exact hs.fields id v hv

end

end Assign

end Store

end ActorLang
