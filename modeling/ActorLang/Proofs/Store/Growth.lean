import ActorLang.Proofs.Store.Unification

/-!
# Stores that grow

A store grows at its ends: what it has stays in its place.  A store that continues a well-formed
one extends it.  `ValidBelow` bounds the variables that the content of a store mentions.
-/

namespace ActorLang

open List

variable {α : Type} {i : Nat} {v r : VarId} {s t : Store}

namespace Store

/-- Everything in `s` is in `t`, in the same place. -/
structure ContinuedBy (s t : Store) : Prop where
  slots : s.slots.toList <+: t.slots.toList
  cells : s.cells.toList <+: t.cells.toList
  records : s.records.toList <+: t.records.toList
  procs : s.procs.toList <+: t.procs.toList
  cfgs : s.cfgs.toList <+: t.cfgs.toList

namespace ContinuedBy

variable {t u : Store}

theorem refl (s : Store) :
  s.ContinuedBy s where
  slots := prefix_refl _
  cells := prefix_refl _
  records := prefix_refl _
  procs := prefix_refl _
  cfgs := prefix_refl _

theorem trans (h : s.ContinuedBy t) (h' : t.ContinuedBy u) :
  s.ContinuedBy u where
  slots := h.slots.trans h'.slots
  cells := h.cells.trans h'.cells
  records := h.records.trans h'.records
  procs := h.procs.trans h'.procs
  cfgs := h.cfgs.trans h'.cfgs

/-! ### Ways to grow -/

theorem newSlot (s : Store) (slot : Slot) :
  s.ContinuedBy (s.newSlot slot).2
  := by
  refine { refl s with slots := ?_ }
  simp [Store.newSlot]

theorem newRecord (s : Store) (r : Record) :
  s.ContinuedBy (s.newRecord r).2
  := by
  refine { refl s with records := ?_ }
  simp [Store.newRecord]

theorem newClosure (s : Store) (c : Closure) :
  s.ContinuedBy (s.newClosure c).2
  := by
  refine { refl s with procs := ?_ }
  simp [Store.newClosure]

theorem newCfg (s : Store) (c : ActorCfg) :
  s.ContinuedBy (s.newCfg c).2
  := by
  refine { refl s with cfgs := ?_ }
  simp [Store.newCfg]

theorem newCell (s : Store) (content : Leaf) :
  s.ContinuedBy (s.newCell content).2
  := by
  refine { refl s with cells := ?_ }
  simp [Store.newCell]

theorem newBound (s : Store) (v : Value) :
  s.ContinuedBy (s.newBound v).2
  := by
  cases v with
  | var => exact refl s
  | datum d => exact newSlot s (.bound d)

/-! ### What stays -/

theorem getElem?_eq {a b : Array α} (h : a.toList <+: b.toList) {x : α} (hi : a[i]? = some x) :
  b[i]? = some x
  := by
  rw [← Array.getElem?_toList] at hi ⊢
  obtain ⟨hlt, rfl⟩ := List.getElem?_eq_some_iff.mp hi
  apply prefix_iff_getElem?.mp h i hlt

theorem size_le {a b : Array α} (h : a.toList <+: b.toList) :
  a.size ≤ b.size
  := by
  simpa using h.length_le

theorem getD_eq {a b : Array α} (h : a.toList <+: b.toList) (hi : i < a.size) (default : α) :
  b.getD i default = a.getD i default
  := by
  have ha : a[i]? = some a[i] := Array.getElem?_eq_getElem hi
  rw [Array.getD_eq_getD_getElem?, Array.getD_eq_getD_getElem?, ha, getElem?_eq h ha]

theorem leads (h : s.slots.toList <+: t.slots.toList) {n : Nat} (hlead : s.Leads n v r) :
  t.Leads n v r
  := by
  induction hlead with
  | stop hr hend => exact Leads.stop (getElem?_eq h hr) hend
  | link hv _ ih => exact Leads.link (getElem?_eq h hv) ih

theorem root_eq (h : s.ContinuedBy t) (hs : s.WellFormed) (hv : v < s.slots.size) :
  t.root v = s.root v
  := by
  obtain ⟨n, r, hlead⟩ := hs.leads v hv
  rw [hlead.root_eq, (leads h.slots hlead).root_eq]

theorem extendedBy (h : s.ContinuedBy t) (hs : s.WellFormed) :
  s.ExtendedBy t where
  slots := size_le h.slots
  records := size_le h.records
  record id hid := getD_eq h.records hid _
  bound v hv d hd := by
    simp only [datum?, h.root_eq hs hv] at hd ⊢
    cases hslot : s.slots[s.root v]? with
    | none => simp [hslot] at hd
    | some =>
      rw [getElem?_eq h.slots hslot]
      rwa [hslot] at hd
  aliased v hv w hw hvw := by
    rw [h.root_eq hs hv, h.root_eq hs hw, hvw]

end ContinuedBy

/-! ### Valid stores -/

/-- Every chain of links ends, the records that variables are bound to exist, and what is in the
store mentions only variables below `n`. -/
structure ValidBelow (s : Store) (n : Nat) : Prop where
  leads : ∀ v < s.slots.size, ∃ m r, s.Leads m v r
  bound : ∀ (v : VarId) (id : RecordId), s.slots[v]? = some (.bound (.record id)) → id < s.records.size
  fields : ∀ r ∈ s.records, ∀ v, .var v ∈ r.values → v < n
  cells : ∀ content ∈ s.cells, ∀ v, content = .var v → v < n
  captured : ∀ c ∈ s.procs, ∀ b ∈ c.env, b.2 < n
  args : ∀ c ∈ s.cfgs, ∀ v ∈ c.args, v < n

abbrev Valid (s : Store) : Prop := s.ValidBelow s.slots.size

theorem Valid.wellFormed (h : s.Valid) :
  s.WellFormed where
  leads := h.leads
  bound v d hd := by
    cases d with
    | scalar => trivial
    | record id => exact h.bound v id hd
  fields id v hv := by
    cases v with
    | var v => exact h.fields _ (Array.mem_toList_iff.mp (record_mem hv)) v hv
    | datum =>
      obtain ⟨⟨f, leaf⟩, -, heq⟩ := mem_map.mp hv
      cases leaf <;> cases heq
      trivial

namespace ValidBelow

variable {n m : Nat}

theorem empty :
  ({} : Store).ValidBelow 0
  := by
  constructor <;> simp

theorem mono (h : s.ValidBelow n) (hnm : n ≤ m) :
  s.ValidBelow m where
  leads := h.leads
  bound := h.bound
  fields r hr v hv := Nat.lt_of_lt_of_le (h.fields r hr v hv) hnm
  cells c hc v hv := Nat.lt_of_lt_of_le (h.cells c hc v hv) hnm
  captured c hc b hb := Nat.lt_of_lt_of_le (h.captured c hc b hb) hnm
  args c hc v hv := Nat.lt_of_lt_of_le (h.args c hc v hv) hnm

end ValidBelow

end Store

end ActorLang
