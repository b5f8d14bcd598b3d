import Mathlib.Data.List.Permutation
import ActorLang.Proofs.Store.Views

/-!
# Single assignment

Whatever is done to a store, its variables are assigned at most once, also where unification ends
with a mismatch or a snapshot cannot be copied to its end.  Every operation keeps the store valid,
so that all chains of links end.
-/

namespace ActorLang

open List

variable {s t : Store} {v : Value} {op : Operation} {W : View}

namespace Store

/-! ### What operations leave alone -/

/-- The stores differ in the states of their variables only. -/
structure SameContent (s t : Store) : Prop where
  cells : t.cells = s.cells
  records : t.records = s.records
  procs : t.procs = s.procs
  cfgs : t.cfgs = s.cfgs

theorem SameContent.refl (s : Store) :
  s.SameContent s where
  cells := rfl
  records := rfl
  procs := rfl
  cfgs := rfl

theorem sameContent_unifyAll (s : Store) (seen : List (RecordId × RecordId)) (work : List (Value × Value)) :
  s.SameContent (s.unifyAll seen work).2
  := by
  refine unifyAll_invariant (fun _ _ _ _ => trivial)
    (fun _ _ _ _ _ => trivial) (fun t h x _ w _ => ?_) (.refl s) seen fun _ _ => ⟨trivial, trivial⟩
  cases w <;> exact ⟨h.cells, h.records, h.procs, h.cfgs⟩

theorem Valid.unify (hs : s.Valid) {left right : Value} (hl : left.Within s) (hr : right.Within s) :
  s.ExtendedBy (s.unify left right).2 ∧ (s.unify left right).2.Valid
  := by
  have hpairs : PairsIn (·.Within s) [(left, right)] := by
    simp [PairsIn, hl, hr]
  have hclosed := hs.wellFormed.closed
  obtain ⟨hext, hout, -⟩ :=
    (unifying_unifyAll hs.wellFormed hclosed [] hpairs).extendedBy hs.wellFormed hclosed hpairs
  have hsame : s.SameContent (s.unify left right).2 := s.sameContent_unifyAll [] [(left, right)]
  have hvalid := hs.mono hext.slots
  refine ⟨hext, hout.leads, fun v id => hout.bound v (.record id), ?_, ?_, ?_, ?_⟩
  · exact hsame.records ▸ hvalid.fields
  · exact hsame.cells ▸ hvalid.cells
  · exact hsame.procs ▸ hvalid.captured
  · exact hsame.cfgs ▸ hvalid.args

theorem follow_setCell (s : Store) (id : CellId) (content : Leaf) (n : Nat) (v : VarId) :
  (s.setCell id content).follow n v = s.follow n v
  := by
  induction n generalizing v with
  | zero => rfl
  | succ n ih =>
    have hslots : (s.setCell id content).slots = s.slots := rfl
    rw [follow, follow, hslots]
    cases s.slots[v]? with
    | none => rfl
    | some slot =>
      cases slot with
      | link w => exact ih w
      | unbound | bound => rfl

theorem extendedBy_setCell (s : Store) (id : CellId) (content : Leaf) :
  s.ExtendedBy (s.setCell id content)
  := by
  have hroot (v : VarId) : (s.setCell id content).root v = s.root v :=
    s.follow_setCell id content s.slots.size v
  refine ⟨Nat.le_refl _, Nat.le_refl _, fun _ _ => rfl, ?_, ?_⟩
  · intro v _ d hd
    rw [datum?, hroot]
    exact hd
  · intro v _ w _ hvw
    rw [hroot, hroot, hvw]

theorem Valid.newSlot (hs : s.Valid) {slot : Slot} (hslot : s.EndsWithin slot) :
  (s.newSlot slot).2.Valid
  := by
  have hin : slot.In s.inRange := by
    cases slot with
    | unbound => trivial
    | link => exact hslot.elim
    | bound d => exact @Value.in_all (fun _ => True) (.datum d)
  obtain ⟨W, htame, hgrown, -⟩ := hs.tame.seeSlot slot hin
  refine hs.grown htame hgrown (ContinuedBy.newSlot s slot).slots (Nat.le_refl _) ?_
  intro x _ hx hslot'
  rw [Store.newSlot, Array.getElem?_push] at hslot'
  split at hslot'
  · cases hslot'
    cases slot with
    | unbound => trivial
    | link => exact hslot
    | bound d => cases d <;> exact hslot
  · exact absurd (Array.getElem?_eq_some_iff.mp hslot').1 (Nat.not_lt.mpr hx)

theorem Valid.content (hs : s.Valid) (htame : t.Tame W fun _ => True) (hgrown : Grown s.inRange W s t)
    (hslots : t.slots = s.slots) (hrecords : s.records.size ≤ t.records.size) :
  t.Valid
  := by
  refine hs.grown htame hgrown (hslots ▸ prefix_rfl) hrecords fun x slot hx hslot => ?_
  rw [hslots] at hslot
  exact absurd (Array.getElem?_eq_some_iff.mp hslot).1 (Nat.not_lt.mpr hx)

/-! ### Operations -/

/-- Something that is done to a store. -/
inductive Operation where
  | newVar
  | newBound (v : Value)
  | newRecord (r : Record)
  | newClosure (c : Closure)
  | newCfg (c : ActorCfg)
  | newCell (content : Leaf)
  | setCell (id : CellId) (content : Leaf)
  | unify (left right : Value)
  | importValue (p : Portable)

namespace Operation

def run (s : Store) : Operation → Store
  | newVar => s.newVar.2
  | newBound v => (s.newBound v).2
  | newRecord r => (s.newRecord r).2
  | newClosure c => (s.newClosure c).2
  | newCfg c => (s.newCfg c).2
  | newCell content => (s.newCell content).2
  | setCell id content => s.setCell id content
  | unify left right => (s.unify left right).2
  | importValue p => (s.importValue p).2

/-- The operation mentions only what is in the store.  A snapshot brings its own variables. -/
def Admissible (s : Store) : Operation → Prop
  | newVar => True
  | newBound v => v.Within s
  | newRecord r => ∀ v ∈ r.values, v.Within s
  | newClosure c => ∀ b ∈ c.env, b.2 < s.slots.size
  | newCfg c => ∀ v ∈ c.args, v < s.slots.size
  | newCell content => content.toValue.Within s
  | setCell _ content => content.toValue.Within s
  | unify left right => left.Within s ∧ right.Within s
  | importValue _ => True

end Operation

/-- The stores that operations make out of the empty one. -/
inductive Built : Store → Prop where
  | empty : Built {}
  | run {s : Store} {op : Operation} (h : Built s) (hop : op.Admissible s) : Built (op.run s)

theorem Valid.run (hs : s.Valid) (hop : op.Admissible s) :
  s.ExtendedBy (op.run s) ∧ (op.run s).Valid
  := by
  have hleaf {l : Leaf} (hl : l.toValue.Within s) : l.In s.inRange := by
    cases l with
    | var v => exact hl
    | scalar a => exact @Scalar.in_all (fun _ => True) a
  cases op with
  | newVar => exact ⟨(ContinuedBy.newSlot s .unbound).extendedBy hs.wellFormed, hs.newSlot trivial⟩
  | newBound v =>
    refine ⟨(ContinuedBy.newBound s v).extendedBy hs.wellFormed, ?_⟩
    cases v with
    | var => exact hs
    | datum => exact hs.newSlot hop
  | newRecord r =>
    obtain ⟨htame, hgrown⟩ := hs.tame.newRecord fun f hf => hleaf (hop _ (mem_map_of_mem hf))
    exact ⟨(ContinuedBy.newRecord s r).extendedBy hs.wellFormed,
      hs.content htame hgrown rfl (ContinuedBy.size_le (ContinuedBy.newRecord s r).records)⟩
  | newClosure c =>
    obtain ⟨W, htame, hgrown, -⟩ := hs.tame.newClosure ⟨trivial, hop⟩
    exact ⟨(ContinuedBy.newClosure s c).extendedBy hs.wellFormed, hs.content htame hgrown rfl (Nat.le_refl _)⟩
  | newCfg c =>
    obtain ⟨W, htame, hgrown, -⟩ := hs.tame.newCfg trivial hop
    exact ⟨(ContinuedBy.newCfg s c).extendedBy hs.wellFormed, hs.content htame hgrown rfl (Nat.le_refl _)⟩
  | newCell content =>
    obtain ⟨htame, hgrown⟩ := hs.tame.newCell content (hleaf hop)
    exact ⟨(ContinuedBy.newCell s content).extendedBy hs.wellFormed, hs.content htame hgrown rfl (Nat.le_refl _)⟩
  | setCell id content =>
    obtain ⟨htame, hgrown⟩ := hs.tame.setCell id (hleaf hop)
    exact ⟨s.extendedBy_setCell id content, hs.content htame hgrown rfl (Nat.le_refl _)⟩
  | unify => exact hs.unify hop.1 hop.2
  | importValue p =>
    obtain ⟨hcontinued, hvalid⟩ := valid_copyInto p.store p.value hs
    exact ⟨hcontinued.extendedBy hs.wellFormed, hvalid⟩

/-- The store has been extended, and its closures are where they were. -/
structure Outlives (t s : Store) : Prop where
  extendedBy : s.ExtendedBy t
  procs : s.procs.toList <+: t.procs.toList

section Outlives

variable {s t u : Store}

theorem Outlives.refl (s : Store) :
  s.Outlives s
  := ⟨.refl s, prefix_rfl⟩

theorem Outlives.trans (h : t.Outlives s) (h' : u.Outlives t) :
  u.Outlives s
  := ⟨h.extendedBy.trans h'.extendedBy, h.procs.trans h'.procs⟩

theorem Outlives.lt (h : t.Outlives s) {v : VarId} (hv : v < s.slots.size) :
  v < t.slots.size
  := Nat.lt_of_lt_of_le hv h.extendedBy.slots

theorem Valid.outlives_run (hs : s.Valid) (hop : op.Admissible s) :
  (op.run s).Outlives s
  := by
  refine ⟨(hs.run hop).1, ?_⟩
  cases op with
  | newVar | newRecord | newCfg | newCell | setCell => exact prefix_rfl
  | newBound v => exact (ContinuedBy.newBound s v).procs
  | newClosure c => exact (ContinuedBy.newClosure s c).procs
  | unify left right =>
    have hsame : s.SameContent (s.unify left right).2 := s.sameContent_unifyAll [] [(left, right)]
    exact hsame.procs ▸ prefix_rfl
  | importValue p => exact (valid_copyInto p.store p.value hs).1.procs

end Outlives

theorem Built.valid (h : s.Built) :
  s.Valid
  := by
  induction h with
  | empty => exact .empty
  | run _ hop ih => exact (ih.run hop).2

/-- Variables are assigned once.  In every store that operations make, each variable leads over
finitely many links to the variable that it stands for, which is unbound or bound to a datum.
Every further operation, whether it succeeds or fails, leaves each bound variable with the same
datum, each record with the same content, and variables that stand for each other together. -/
theorem built_assignedOnce {s : Store} (h : s.Built) :
  (∀ v < s.slots.size, ∃ n, s.Leads n v (s.root v) ∧
    (s.slots[s.root v]? = some .unbound ∨ ∃ d, s.slots[s.root v]? = some (.bound d) ∧
      s.resolve (.var v) = .datum d ∧ (Value.datum d).Within s)) ∧
  ∀ op : Operation, op.Admissible s → s.ExtendedBy (op.run s)
  := by
  have hvalid := h.valid
  constructor
  · intro v hv
    obtain ⟨n, r, hlead⟩ := hvalid.leads v hv
    have hroot := hlead.root_eq
    refine ⟨n, hroot ▸ hlead, ?_⟩
    rw [hroot]
    rcases hlead.slot_end with hr | ⟨d, hr⟩
    · exact .inl hr
    · exact .inr ⟨d, hr, hlead.resolve_eq.trans (resolve_of_bound hr), hvalid.wellFormed.bound r d hr⟩
  · intro _ hop
    exact (hvalid.run hop).1

/-- Two variables that stand for each other, and two records that cannot be made equal, of which
the first one mentions a variable. -/
def sharing : Store :=
  [.newVar, .newVar, .unify (.var 0) (.var 1), .newRecord (.tuple none [.lit (.int32 1), .var 0]),
    .newRecord (.tuple none [.lit (.int32 2), .lit (.str "a")])].foldl Operation.run {}

theorem sharing_built :
  sharing.Built
  := by
  rw [sharing]
  simp only [foldl_cons]
  refine .run (.run (.run (.run (.run .empty ?_) ?_) ?_) ?_) ?_
  · trivial
  · trivial
  · exact ⟨by cbv, by cbv⟩
  · have hsize : (Operation.run (Operation.run (Operation.run {} .newVar) .newVar)
        (.unify (.var 0) (.var 1))).slots.size = 2 := by
      cbv
    simp [Operation.Admissible, Record.values, Record.tuple, Leaf.toValue, Value.Within, hsize, Leaf.lit, Value.scalar]
  · simp [Operation.Admissible, Record.values, Record.tuple, Leaf.toValue, Value.Within, Leaf.lit, Value.scalar]

/-- A snapshot that can be copied only in part: a record that mentions an unbound variable. -/
def halfBound : Portable where
  store :=
    { slots := #[.bound (.record 0), .unbound]
      records := #[.tuple none [.var 1]] }
  value := .var 0

/-- A unification that fails after it has bound a variable, and a snapshot that is copied only in
part, both extend the store. -/
theorem built_assignedOnce_sharing :
  (sharing.unify (.record 0) (.record 1)).1 ≠ .ok () ∧
  (sharing.unify (.record 0) (.record 1)).2.resolve (.var 1) = .lit (.str "a") ∧
  sharing.ExtendedBy (sharing.unify (.record 0) (.record 1)).2 ∧
  (sharing.importValue halfBound).1 = .error .unbound ∧
  (sharing.importValue halfBound).2.slots.size = 3 ∧
  sharing.ExtendedBy (sharing.importValue halfBound).2
  := by
  have hall := (built_assignedOnce sharing_built).2
  refine ⟨?_, by cbv, ?_, by cbv, by cbv, ?_⟩
  · have hnone : (sharing.unify (.record 0) (.record 1)).1.toOption = none := by
      cbv
    intro hok
    rw [hok] at hnone
    cases hnone
  · exact hall (.unify (.record 0) (.record 1)) ⟨by cbv, by cbv⟩
  · exact hall (.importValue halfBound) trivial

end Store

end ActorLang
