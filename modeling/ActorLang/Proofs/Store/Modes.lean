import ActorLang.Proofs.Store.Operations

/-!
# What more is asked of a store

A tame store may also have to be valid, and may have to mention only some of the iterators and actors.
A mode says which of this is asked for.  An operation with values that the mode allows keeps to it.
-/

namespace ActorLang

open List

/-- What is asked for beside tameness. -/
structure Mode where
  /-- Whether stores are valid, and have all that is in view. -/
  valid : Prop
  /-- The iterators that may be mentioned. -/
  iterators : Nat → Prop
  /-- Whether there may be actors. -/
  actors : Prop
  /-- Whether it matters how tokens, iterators and actors are numbered. -/
  counts : Prop := True
  /-- The actors that may be mentioned, if this does not matter. -/
  knows : ActorId → Prop := fun _ => True

def Mode.lax : Mode where
  valid := False
  iterators _ := True
  actors := True

variable {M : Mode} {V W : View} {s : Store}

def Scalar.Fits (M : Mode) : Scalar → Prop
  | .proc (.iterator index) => M.iterators index
  | .actor id => M.actors ∧ (M.counts ∨ M.knows id)
  | _ => True

def Leaf.Fits (M : Mode) (V : View) : Leaf → Prop
  | .var v => V.vars v
  | .scalar a => a.In V ∧ a.Fits M

def Datum.Fits (M : Mode) (V : View) : Datum → Prop
  | .scalar a => a.In V ∧ a.Fits M
  | .record _ => True

/-- If the value is a scalar, the mode allows it. -/
def Value.Allowed (M : Mode) (v : Value) : Prop := ∀ a, v = .scalar a → a.Fits M

/-- The value is in view, the mode allows it, and a valid store that has all that is in view has it. -/
structure Value.Fits (M : Mode) (V : View) (v : Value) : Prop where
  inView : v.In V
  allowed : v.Allowed M
  within : M.valid → ∀ s : Store, (∀ x, V.vars x → x < s.slots.size) → v.Within s

theorem Scalar.fits_of_all (hM : ∀ i, M.iterators i) (hactors : M.actors ∧ M.counts) (a : Scalar) :
  a.Fits M
  := by
  rcases a with _ | _ | (_ | _ | i) | _ | _ | _ | _ <;>
    first | trivial | exact hM i | exact ⟨hactors.1, .inl hactors.2⟩

variable {l : Leaf} {d : Datum} {v : Value} {slot : Slot}

theorem Leaf.Fits.mono (h : l.Fits M V) (hle : V ≤ W) :
  l.Fits M W
  := by
  cases l with
  | var v => exact hle.vars v h
  | scalar => exact ⟨h.1.mono hle, h.2⟩

theorem Datum.Fits.mono (h : d.Fits M V) (hle : V ≤ W) :
  d.Fits M W
  := by
  cases d with
  | scalar => exact ⟨h.1.mono hle, h.2⟩
  | record => trivial

theorem Leaf.Fits.inView (h : l.Fits M V) :
  l.In V
  := by
  cases l with
  | var => exact h
  | scalar => exact h.1

theorem Datum.Fits.inView (h : d.Fits M V) :
  d.In V
  := by
  cases d with
  | scalar => exact h.1
  | record => trivial

theorem Leaf.Fits.allowed (h : l.Fits M V) :
  l.toValue.Allowed M
  := by
  rintro a ha
  cases l with
  | var => cases ha
  | scalar =>
    cases ha
    exact h.2

theorem Leaf.Fits.toValue (h : l.Fits M V) :
  l.toValue.Fits M V
  := by
  refine ⟨h.inView.toValue, h.allowed, fun _ s hs => ?_⟩
  cases l with
  | var v => exact hs v h
  | scalar => trivial

theorem Value.Fits.scalar {a : Scalar} (ha : a.In V) (h : a.Fits M) :
  (Value.scalar a).Fits M V
  := Leaf.Fits.toValue (l := .scalar a) ⟨ha, h⟩

theorem Value.Fits.lit (l : Literal) :
  (Value.lit l).Fits M V
  := .scalar trivial trivial

theorem Value.Fits.var {x : VarId} (hx : V.vars x) :
  (Value.var x).Fits M V
  := Leaf.Fits.toValue (l := .var x) hx

theorem Leaf.fits_of_allowed (hin : l.In V) (h : l.toValue.Allowed M) :
  l.Fits M V
  := by
  cases l with
  | var => exact hin
  | scalar a => exact ⟨hin, h a rfl⟩

namespace Store

/-- The mode allows all that is in the store. -/
structure Fits (M : Mode) (s : Store) : Prop where
  slots : ∀ d, .bound d ∈ s.slots → (Value.datum d).Allowed M
  records : ∀ r ∈ s.records, ∀ v ∈ r.values, v.Allowed M
  cells : ∀ content ∈ s.cells, content.toValue.Allowed M

theorem fits_of_all (s : Store) (hM : ∀ i, M.iterators i) (hactors : M.actors ∧ M.counts) :
  s.Fits M where
  slots _ _ a _ := a.fits_of_all hM hactors
  records _ _ _ _ a _ := a.fits_of_all hM hactors
  cells _ _ a _ := a.fits_of_all hM hactors

namespace Fits

theorem record (h : s.Fits M) (id : RecordId) (hv : v ∈ (s.record id).values) :
  v.Allowed M
  := h.records _ (Array.mem_toList_iff.mp (record_mem hv)) v hv

theorem cell (h : s.Fits M) (id : CellId) :
  (s.cell id).toValue.Allowed M
  := by
  rw [Store.cell, Array.getD_eq_getD_getElem?]
  cases hid : s.cells[id]? with
  | none =>
    rintro a ⟨⟩
    trivial
  | some content => exact h.cells content (Array.mem_of_getElem? hid)

theorem resolve (h : s.Fits M) (hv : v.Allowed M) :
  (s.resolve v).Allowed M
  := by
  cases v with
  | datum => exact hv
  | var =>
    rw [Store.resolve]
    split
    case h_1 d hd => exact h.slots d (Array.mem_of_getElem? hd)
    case h_2 => exact fun _ h => by cases h

theorem newSlot (h : s.Fits M) (hslot : ∀ d, slot = .bound d → (Value.datum d).Allowed M) :
  (s.newSlot slot).2.Fits M
  := by
  refine { h with slots := fun d hd => ?_ }
  rcases Array.mem_push.mp hd with hd | hd
  · exact h.slots d hd
  · exact hslot d hd.symm

theorem setSlot (h : s.Fits M) (v : VarId) (hslot : ∀ d, slot = .bound d → (Value.datum d).Allowed M) :
  (s.setSlot v slot).Fits M
  := by
  refine { h with slots := fun d hd => ?_ }
  rcases Array.mem_or_eq_of_mem_setIfInBounds hd with hd | hd
  · exact h.slots d hd
  · exact hslot d hd.symm

theorem unifyAll (h : s.Fits M) (seen : List (RecordId × RecordId)) {work : List (Value × Value)}
    (hwork : PairsIn (·.Allowed M) work) :
  (s.unifyAll seen work).2.Fits M
  := by
  refine unifyAll_invariant (fun _ h _ => h.resolve) (fun _ h id _ => h.record id) (fun s h x _ w hw => ?_) h seen hwork
  cases w with
  | var => exact h.setSlot x nofun
  | datum =>
    refine h.setSlot x ?_
    rintro _ ⟨⟩
    exact hw

theorem mono {M' : Mode} (h : s.Fits M) (hM : ∀ a : Scalar, a.Fits M → a.Fits M') :
  s.Fits M' where
  slots d hd a ha := hM a (h.slots d hd a ha)
  records r hr v hv a ha := hM a (h.records r hr v hv a ha)
  cells content hcontent a ha := hM a (h.cells content hcontent a ha)

end Fits

/-- The mode allows the values that the operation is about.  What a snapshot brings is not known. -/
def Operation.Allowed (M : Mode) : Operation → Prop
  | newVar | newClosure _ | newCfg _ => True
  | newBound v => v.Allowed M
  | newRecord r => ∀ v ∈ r.values, v.Allowed M
  | newCell content | setCell _ content => content.toValue.Allowed M
  | unify left right => left.Allowed M ∧ right.Allowed M
  | importValue _ => False

/-- The operation is about values that are in view, and that the mode allows. -/
def Operation.Fits (M : Mode) (V : View) (op : Operation) : Prop :=
  op.Allowed M ∧ (M.valid → ∀ s : Store, (∀ v, V.vars v → v < s.slots.size) → op.Admissible s)

theorem Fits.run (h : s.Fits M) {op : Operation} (hop : op.Allowed M) :
  (op.run s).Fits M
  := by
  cases op with
  | newVar => exact h.newSlot nofun
  | newBound v =>
    cases v with
    | var v => exact h
    | datum d =>
      refine h.newSlot ?_
      rintro _ ⟨⟩
      exact hop
  | newRecord r =>
    refine { h with records := fun r' hr' => ?_ }
    rcases Array.mem_push.mp hr' with hr' | rfl
    · exact h.records r' hr'
    · exact hop
  | newClosure | newCfg => exact ⟨h.slots, h.records, h.cells⟩
  | newCell content =>
    refine { h with cells := fun content' hmem => ?_ }
    rcases Array.mem_push.mp hmem with hmem | rfl
    · exact h.cells content' hmem
    · exact hop
  | setCell id content =>
    refine { h with cells := fun content' hmem => ?_ }
    rcases Array.mem_or_eq_of_mem_setIfInBounds hmem with hmem | rfl
    · exact h.cells content' hmem
    · exact hop
  | unify left right => exact h.unifyAll [] (forall_mem_singleton.mpr hop)
  | importValue => exact hop.elim

end Store

end ActorLang
