import ActorLang.Proofs.Store.Faithful

/-!
# What can leave its actor

A value has a snapshot precisely if it leads to no unbound variable and to no cell: through the
fields of records, the variables that procedures capture and the arguments of configurations.  The
search for a snapshot looks only at what the value leads to, and what it has found is closed under
all these ways.
-/

namespace ActorLang

open List

namespace Store

variable {s t : Store} {v u : Value} {d : Datum} {ren : Renaming} {visit : Visit} {found : List VarId}
  {reason : NotPortable} {r : Search}

/-! ### What a value leads to -/

/-- The values that a snapshot of a value has to take along. -/
inductive LeadsTo (s : Store) (v : Value) : Value → Prop where
  | self : LeadsTo s v v
  | field {u w id} (h : LeadsTo s v u) (hu : s.resolve u = .datum (.record id))
      (hw : w ∈ (s.record id).values) : LeadsTo s v w
  | captured {u d x} (h : LeadsTo s v u) (hu : s.resolve u = .datum d) (hx : x ∈ s.capturedBy d) :
      LeadsTo s v (.var x)
  | argument {u d x} (h : LeadsTo s v u) (hu : s.resolve u = .datum d) (hx : x ∈ s.argumentsOf d) :
      LeadsTo s v (.var x)

/-- The value itself cannot leave its actor, for this reason. -/
def Obstructs (s : Store) (u : Value) : NotPortable → Prop
  | .unbound => ∃ x, s.resolve u = .var x
  | .cell => ∃ id, s.resolve u = .datum (.scalar (.cell id))

/-- The search looks at something that the value leads to. -/
def Relevant (s : Store) (v : Value) : Visit → Prop
  | .var x => s.LeadsTo v (.var x)
  | .cell => ∃ u, s.LeadsTo v u ∧ s.Obstructs u .cell
  | .close _ => True

theorem mem_scalarVisits {a : Scalar} (h : visit ∈ s.scalarVisits a) :
  (∃ x, visit = .var x ∧ (x ∈ s.capturedBy (.scalar a) ∨ x ∈ s.argumentsOf (.scalar a))) ∨
    visit = .cell ∧ ∃ id, a = .cell id
  := by
  cases a with
  | lit | token | actor => cases h
  | cell id => exact .inr ⟨mem_singleton.mp h, id, rfl⟩
  | proc p =>
    cases p with
    | builtin | iterator => cases h
    | closure =>
      obtain ⟨x, hx, rfl⟩ := mem_map.mp h
      exact .inl ⟨x, rfl, .inl hx⟩
  | actorCfgtr =>
    obtain ⟨x, hx, rfl⟩ := mem_map.mp h
    exact .inl ⟨x, rfl, .inl hx⟩
  | actorCfg =>
    obtain ⟨x, hx, rfl⟩ := mem_map.mp h
    exact .inl ⟨x, rfl, mem_append.mp hx⟩

theorem LeadsTo.relevant_scalar {a : Scalar} (h : s.LeadsTo v u)
    (hu : s.resolve u = .datum (.scalar a)) (hvisit : visit ∈ s.scalarVisits a) :
  s.Relevant v visit
  := by
  rcases mem_scalarVisits hvisit with ⟨x, rfl, hx | hx⟩ | ⟨rfl, id, rfl⟩
  · exact h.captured hu hx
  · exact h.argument hu hx
  · exact ⟨u, h, id, hu⟩

theorem LeadsTo.relevant (h : s.LeadsTo v u) (hu : s.resolve u = .datum d) (hvisit : visit ∈ s.datumVisits d) :
  s.Relevant v visit
  := by
  cases d with
  | scalar => exact h.relevant_scalar hu hvisit
  | record =>
    obtain ⟨⟨f, leaf⟩, hfield, hvisit⟩ := mem_flatMap.mp hvisit
    have hleaf : s.LeadsTo v leaf.toValue := h.field hu (mem_map.mpr ⟨_, hfield, rfl⟩)
    cases leaf with
    | var =>
      rw [mem_singleton.mp hvisit]
      exact hleaf
    | scalar => exact hleaf.relevant_scalar rfl hvisit

theorem relevant_valueVisits (s : Store) (v : Value) (hvisit : visit ∈ s.valueVisits v) :
  s.Relevant v visit
  := by
  cases v with
  | var =>
    rw [mem_singleton.mp hvisit]
    exact LeadsTo.self
  | datum => exact LeadsTo.self.relevant rfl hvisit

/-! ### When there is a snapshot -/

theorem obstructs_of_reach {work : List Visit} (hwork : ∀ visit ∈ work, s.Relevant v visit)
    (h : (s.reach found work).failure = some reason) :
  ∃ u, s.LeadsTo v u ∧ s.Obstructs u reason
  := by
  fun_induction reach s found work with
  | case1 => cases h
  | case2 =>
    cases h
    exact hwork .cell (mem_cons_self ..)
  | case3 _ x _ ih | case4 _ x _ _ ih => exact ih (forall_mem_cons.mp hwork).2 h
  | case5 _ x _ _ d hd ih =>
    obtain ⟨hx, hrest⟩ := forall_mem_cons.mp hwork
    refine ih (forall_mem_append.mpr ⟨fun visit => LeadsTo.relevant hx ?_, forall_mem_cons.mpr ⟨trivial, hrest⟩⟩) h
    simp only [Store.resolve, hd]
  | case6 _ x _ _ hunbound =>
    cases h
    refine ⟨.var x, hwork _ (mem_cons_self ..), s.root x, ?_⟩
    rw [Store.resolve]
    split
    case h_1 d hd => exact (hunbound d hd).elim
    case h_2 => rfl

/-- What has been found when a search ends is all that the value leads to. -/
theorem Complete.settled_of_leadsTo (hsearch : s.Complete [] (s.valueVisits v) r)
    (hnone : r.failure = none) (h : s.LeadsTo v u) :
  ∃ d, s.resolve u = .datum d ∧ ∀ visit ∈ s.datumVisits d, s.Settled r.found visit
  := by
  obtain ⟨hopened, hwork⟩ := hsearch.settled hnone
  have hdatum {u : Value} (hall : ∀ visit ∈ s.valueVisits u, s.Settled r.found visit) :
      ∃ d, s.resolve u = .datum d ∧ ∀ visit ∈ s.datumVisits d, s.Settled r.found visit := by
    cases u with
    | var x =>
      obtain ⟨d, hd, hsettled⟩ := hsearch.finished _ (hall (.var x) (mem_singleton_self _)) (by simp [hopened])
      refine ⟨d, ?_, hsettled⟩
      simp only [Store.resolve, hd]
    | datum d => exact ⟨d, rfl, hall⟩
  have hvar {x : VarId} (hx : s.Settled r.found (.var x)) :
      ∃ d, s.resolve (.var x) = .datum d ∧ ∀ visit ∈ s.datumVisits d, s.Settled r.found visit :=
    hdatum (forall_mem_singleton.mpr hx)
  induction h with
  | self => exact hdatum hwork
  | field _ hu hw ih =>
    obtain ⟨d, hd, hsettled⟩ := ih
    cases hu.symm.trans hd
    obtain ⟨f, hf, rfl⟩ := mem_map.mp hw
    apply hdatum
    intro visit hvisit
    refine hsettled visit (mem_flatMap.mpr ⟨f, hf, ?_⟩)
    obtain ⟨f, leaf⟩ := f
    cases leaf with
    | var | scalar => exact hvisit
  | captured _ hu hx ih =>
    obtain ⟨d, hd, hsettled⟩ := ih
    cases hu.symm.trans hd
    exact hvar (hsettled _ (mem_visits_of_captured hx))
  | argument _ hu hx ih =>
    obtain ⟨d, hd, hsettled⟩ := ih
    cases hu.symm.trans hd
    exact hvar (hsettled _ (mem_visits_of_argument hx))

theorem Complete.not_obstructs (hsearch : s.Complete [] (s.valueVisits v) r)
    (hnone : r.failure = none) (h : s.LeadsTo v u) :
  ¬ s.Obstructs u reason
  := by
  obtain ⟨d, hd, hsettled⟩ := hsearch.settled_of_leadsTo hnone h
  cases reason with
  | unbound =>
    rintro ⟨x, hx⟩
    cases hx.symm.trans hd
  | cell =>
    rintro ⟨_, hid⟩
    cases hid.symm.trans hd
    exact hsettled .cell (mem_singleton_self _)

theorem exportValue_eq_error_iff :
  s.exportValue v = .error reason ↔ (s.reach [] (s.valueVisits v)).failure = some reason
  := by
  rw [exportValue]
  rcases s.copyInto_cases v {} rfl with ⟨e, he, h⟩ | ⟨hnone, h⟩
  · simp [h, he]
  · simp [h, hnone]

/-! ### Snapshots are clean -/

/-- The datum is a cell, or a record that has one. -/
def HoldsCell (s : Store) : Datum → Prop
  | .scalar a => ∃ id, a = .cell id
  | .record id => ∃ cell, .scalar (.cell cell) ∈ (s.record id).values

theorem HoldsCell.cell_mem (h : s.HoldsCell d) :
  .cell ∈ s.datumVisits d
  := by
  cases d with
  | scalar =>
    obtain ⟨_, rfl⟩ := h
    exact mem_singleton_self _
  | record =>
    obtain ⟨_, h⟩ := h
    obtain ⟨⟨f, leaf⟩, hfield, hleaf⟩ := mem_map.mp h
    cases leaf with
    | var => cases hleaf
    | scalar =>
      cases hleaf
      exact mem_flatMap.mpr ⟨_, hfield, mem_singleton_self _⟩

theorem DatumCopy.not_holdsCell {e : Datum} (h : s.DatumCopy ren t d e)
    (hd : ∀ visit ∈ s.datumVisits d, s.Settled found visit) :
  ¬ t.HoldsCell e
  := by
  intro he
  have hcell := he.cell_mem
  rw [h.visits_eq] at hcell
  obtain ⟨visit, hvisit, heq⟩ := mem_map.mp hcell
  cases visit with
  | cell => exact hd .cell hvisit
  | var | close => cases heq

end Store

/-- Nothing in the snapshot is unbound, a link or a cell. -/
structure Portable.Clean (p : Portable) : Prop where
  slots : ∀ slot ∈ p.store.slots, ∃ d, slot = .bound d ∧ ¬ p.store.HoldsCell d
  value : ∀ d, p.value = .datum d → ¬ p.store.HoldsCell d
  cells : p.store.cells = #[]

namespace Store

variable {s t : Store} {v : Value} {p : Portable} {r : Search}

theorem Complete.clean {value : Value} (hsearch : s.Complete [] (s.valueVisits v) r)
    (hnone : r.failure = none) (ht : (s.copyFound r {}).AddsContent t)
    (hvalue : ∀ d, value = .datum d → ¬ t.HoldsCell d) :
  Portable.Clean ⟨t, value⟩
  := by
  obtain ⟨hopened, -⟩ := hsearch.settled hnone
  obtain ⟨-, -, hcells, -⟩ := s.slotCopy_copyVars (r.renaming {}) r.opened r.found.reverse {}
  refine ⟨?_, hvalue, ht.cells.trans hcells⟩
  intro slot hslot
  obtain ⟨i, hi⟩ := Array.mem_iff_getElem?.mp hslot
  obtain ⟨y, hy, hcopy⟩ := slotCopy_copyFound ht (Nat.zero_le i) hi
  obtain ⟨d, hd, hsettled⟩ := hsearch.finished y hy (by simp [hopened])
  cases slot with
  | unbound => simp [SlotCopy, hopened] at hcopy
  | link => exact hcopy.elim
  | bound e =>
    have hcopy := hcopy.2
    rw [datum?_of_bound hd] at hcopy
    exact ⟨e, rfl, hcopy.not_holdsCell hsettled⟩

theorem clean_exportValue (h : s.exportValue v = .ok p) :
  p.Clean
  := by
  obtain ⟨_, _⟩ := p
  have hrun := copyInto_of_exportValue h
  have hsearch := s.complete_reach_nil (s.valueVisits v)
  generalize hr : s.reach [] (s.valueVisits v) = r at hsearch
  rcases s.copyInto_cases v {} hr with ⟨e, -, hcopy⟩ | ⟨hnone, hcopy⟩
  all_goals cases hrun.symm.trans hcopy
  refine hsearch.clean hnone (s.addsContent_copyValue ..) fun d hd => ?_
  cases v with
  | var => cases hd
  | datum =>
    cases hd
    exact (s.datumCopy_copyDatum ..).2.not_holdsCell (hsearch.settled hnone).2

/-- A value has no snapshot precisely if it leads to an unbound variable or to a cell, and the
reason that is given is one of these.  A snapshot holds neither, nor a link, and arrives in every
store, where everything stays as it was. -/
theorem exportValue_error_iff (s : Store) (v : Value) :
  ((∃ reason, s.exportValue v = .error reason) ↔
    ∃ u, s.LeadsTo v u ∧ (s.Obstructs u .unbound ∨ s.Obstructs u .cell)) ∧
  (∀ reason, s.exportValue v = .error reason → ∃ u, s.LeadsTo v u ∧ s.Obstructs u reason) ∧
  ∀ p, s.exportValue v = .ok p → p.Clean ∧
    ∀ t : Store, (∃ w, (t.importValue p).1 = .ok w) ∧ t.ContinuedBy (t.importValue p).2
  := by
  have hreason (reason : NotPortable) (h : s.exportValue v = .error reason) :
      ∃ u, s.LeadsTo v u ∧ s.Obstructs u reason :=
    obstructs_of_reach (fun _ => s.relevant_valueVisits v) (exportValue_eq_error_iff.mp h)
  refine ⟨⟨?_, ?_⟩, hreason, ?_⟩
  · rintro ⟨reason, h⟩
    obtain ⟨u, hu, hobstructs⟩ := hreason reason h
    refine ⟨u, hu, ?_⟩
    cases reason with
    | unbound => exact .inl hobstructs
    | cell => exact .inr hobstructs
  · rintro ⟨u, hu, hobstructs⟩
    cases hfailure : (s.reach [] (s.valueVisits v)).failure with
    | some reason => exact ⟨reason, exportValue_eq_error_iff.mpr hfailure⟩
    | none =>
      have hnot {reason : NotPortable} : ¬ s.Obstructs u reason :=
        (s.complete_reach_nil _).not_obstructs hfailure hu
      exact (hobstructs.elim hnot hnot).elim
  · intro p hp
    refine ⟨clean_exportValue hp, ?_⟩
    intro t
    obtain ⟨-, -, _, hmirror, hcopy⟩ := valueCopy_exportValue hp
    exact ⟨hcopy.copyInto_ok hmirror t, p.store.continuedBy_copyInto p.value t⟩

end Store

end ActorLang
