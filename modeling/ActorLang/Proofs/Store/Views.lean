import ActorLang.Proofs.Store.Copying

/-!
# What values lead to

A view says what values may lead to: there are also variables and closures that they never lead to,
such as procedures for the control of a program.  In a tame store nothing in view mentions anything
out of view, and every closure in view obeys a condition.  All that is done with values in view
keeps the store tame, and adds to the view only what is new.
-/

namespace ActorLang

open List

/-- What values may lead to, and the names that may be missing. -/
structure View where
  vars : VarId → Prop
  procs : ProcId → Prop
  cfgs : CfgId → Prop
  names : Kernel.Ident → Prop

variable {names : Kernel.Ident → Prop} {a : Scalar} {l content : Leaf} {d : Datum} {v : VarId}
  {slot : Slot} {c : Closure} {id : ProcId} {p : Portable} {C : Definition → Prop} {V W U : View}
  {s out : Store}

namespace View

/-- Everything is in view. -/
def all (names : Kernel.Ident → Prop) : View where
  vars _ := True
  procs _ := True
  cfgs _ := True
  names := names

/-- Everything is in view, and no name may be missing. -/
def full : View := all fun _ => False

/-- More is in view. -/
structure Le (V W : View) : Prop where
  vars : ∀ v, V.vars v → W.vars v
  procs : ∀ id, V.procs id → W.procs id
  cfgs : ∀ id, V.cfgs id → W.cfgs id
  names : W.names = V.names

instance : LE View := ⟨Le⟩

theorem le_refl (V : View) :
  V ≤ V where
  vars _ := id
  procs _ := id
  cfgs _ := id
  names := rfl

theorem eq_all (h : all names ≤ V) :
  V = all names
  := by
  have hvars : V.vars = fun _ => True := funext fun v => eq_true (h.vars v trivial)
  have hprocs : V.procs = fun _ => True := funext fun id => eq_true (h.procs id trivial)
  have hcfgs : V.cfgs = fun _ => True := funext fun id => eq_true (h.cfgs id trivial)
  obtain ⟨_, _, _, names⟩ := V
  cases hvars
  cases hprocs
  cases hcfgs
  cases h.names
  rfl

theorem eq_full (h : full ≤ V) :
  V = full
  := eq_all h

theorem le_trans (h : U ≤ V) (h' : V ≤ W) :
  U ≤ W where
  vars v hv := h'.vars v (h.vars v hv)
  procs id hid := h'.procs id (h.procs id hid)
  cfgs id hid := h'.cfgs id (h.cfgs id hid)
  names := h'.names.trans h.names

/-- The view with more variables. -/
def addVars (V : View) (new : VarId → Prop) : View := { V with vars := fun v => V.vars v ∨ new v }

/-- The view with another closure. -/
def addProc (V : View) (id : ProcId) : View := { V with procs := fun id' => V.procs id' ∨ id' = id }

/-- The view with another configuration. -/
def addCfg (V : View) (id : CfgId) : View := { V with cfgs := fun id' => V.cfgs id' ∨ id' = id }

theorem le_addVars (V : View) (new : VarId → Prop) :
  V ≤ V.addVars new
  := { le_refl V with vars := fun _ => .inl }

theorem le_addProc (V : View) (id : ProcId) :
  V ≤ V.addProc id
  := { le_refl V with procs := fun _ => .inl }

theorem le_addCfg (V : View) (id : CfgId) :
  V ≤ V.addCfg id
  := { le_refl V with cfgs := fun _ => .inl }

end View

def Scalar.In (V : View) : Scalar → Prop
  | .proc (.closure id) => V.procs id
  | .actorCfgtr id => V.procs id
  | .actorCfg id => V.cfgs id
  | _ => True

def Leaf.In (V : View) : Leaf → Prop
  | .var v => V.vars v
  | .scalar a => a.In V

def Datum.In (V : View) : Datum → Prop
  | .scalar a => a.In V
  | .record _ => True

def Value.In (V : View) : Value → Prop
  | .var v => V.vars v
  | .datum d => d.In V

def Slot.In (V : View) : Slot → Prop
  | .unbound => True
  | .link v => V.vars v
  | .bound d => d.In V

section Mono

theorem Scalar.In.mono (h : a.In V) (hle : V ≤ W) :
  a.In W
  := by
  cases a with
  | proc p =>
    cases p with
    | closure id => exact hle.procs id h
    | builtin | iterator => trivial
  | actorCfgtr id => exact hle.procs id h
  | actorCfg id => exact hle.cfgs id h
  | lit | token | actor | cell => trivial

theorem Leaf.In.mono (h : l.In V) (hle : V ≤ W) :
  l.In W
  := by
  cases l with
  | var v => exact hle.vars v h
  | scalar => exact Scalar.In.mono h hle

theorem Datum.In.mono (h : d.In V) (hle : V ≤ W) :
  d.In W
  := by
  cases d with
  | scalar => exact Scalar.In.mono h hle
  | record => trivial

theorem Value.In.mono {v : Value} (h : v.In V) (hle : V ≤ W) :
  v.In W
  := by
  cases v with
  | var v => exact hle.vars v h
  | datum => exact Datum.In.mono h hle

theorem Slot.In.mono (h : slot.In V) (hle : V ≤ W) :
  slot.In W
  := by
  cases slot with
  | unbound => trivial
  | link v => exact hle.vars v h
  | bound => exact Datum.In.mono h hle

theorem Leaf.In.toValue (h : l.In V) :
  l.toValue.In V
  := by
  cases l <;> exact h

theorem Scalar.in_all (a : Scalar) :
  a.In (.all names)
  := by
  rcases a with _ | _ | (_ | _ | _) | _ | _ | _ | _ <;> trivial

theorem Leaf.in_all (l : Leaf) :
  l.In (.all names)
  := by
  cases l with
  | var => trivial
  | scalar a => exact a.in_all

theorem Value.in_all (v : Value) :
  v.In (.all names)
  := by
  rcases v with v | (a | _)
  · trivial
  · exact a.in_all
  · trivial

end Mono

/-- The closure obeys the condition and captures only what is in view. -/
structure Closure.Tame (V : View) (C : Definition → Prop) (c : Closure) : Prop where
  definition : C c.definition
  env : ∀ b ∈ c.env, V.vars b.2

theorem Closure.Tame.mono {V W : View} {C : Definition → Prop} (h : c.Tame V C) (hle : V ≤ W) :
  c.Tame W C
  := ⟨h.definition, fun b hb => hle.vars _ (h.env b hb)⟩

namespace Store

/-- What is in view mentions only what is in view, and its closures obey the condition, as does one
that is not there. -/
structure Tame (V : View) (C : Definition → Prop) (s : Store) : Prop where
  slots : ∀ (v : VarId) slot, s.slots[v]? = some slot → V.vars v → slot.In V
  records : ∀ r ∈ s.records, ∀ f ∈ r.fields, f.2.In V
  cells : ∀ content ∈ s.cells, content.In V
  closures : ∀ (id : ProcId) c, s.procs[id]? = some c → V.procs id → c.Tame V C
  cfgs : ∀ c ∈ s.cfgs, V.procs c.cfgtr ∧ ∀ v ∈ c.args, V.vars v
  absent : C (Closure.definition {})

/-- The store has grown from `s` to `t`, and what is in view from `V` to `W`: only what is new has
come into view, and what was out of view is as it was. -/
structure Grown (V W : View) (s t : Store) : Prop where
  le : V ≤ W
  vars : ∀ v, W.vars v → V.vars v ∨ s.slots.size ≤ v ∧ v < t.slots.size
  procs : ∀ id, W.procs id → V.procs id ∨ s.procs.size ≤ id ∧ id < t.procs.size
  cfgs : ∀ id, W.cfgs id → V.cfgs id ∨ s.cfgs.size ≤ id ∧ id < t.cfgs.size
  slots : ∀ v < s.slots.size, ¬ V.vars v → t.slots[v]? = s.slots[v]?
  closures : s.procs.toList <+: t.procs.toList
  varsSize : s.slots.size ≤ t.slots.size
  cfgsSize : s.cfgs.size ≤ t.cfgs.size

/-- An operation keeps the store tame, and what it makes is in view. -/
abbrev Makes (s : Store) (V : View) (C : Definition → Prop) {α : Type} (r : α × Store) (P : View → α → Prop) : Prop :=
  ∃ W, r.2.Tame W C ∧ Grown V W s r.2 ∧ P W r.1

section

variable {t u : Store}

theorem Grown.procsSize (h : Grown V W s t) :
  s.procs.size ≤ t.procs.size
  := by
  simpa using h.closures.length_le

theorem Grown.refl (V : View) (s : Store) :
  Grown V V s s where
  le := V.le_refl
  vars _ := .inl
  procs _ := .inl
  cfgs _ := .inl
  slots _ _ _ := rfl
  closures := prefix_refl _
  varsSize := Nat.le_refl _
  cfgsSize := Nat.le_refl _

theorem new_trans {P Q R : Nat → Prop} {a b c : Nat} (h : ∀ n, Q n → P n ∨ a ≤ n ∧ n < b)
    (h' : ∀ n, R n → Q n ∨ b ≤ n ∧ n < c) (hab : a ≤ b) (hbc : b ≤ c) (n : Nat) (hn : R n) :
  P n ∨ a ≤ n ∧ n < c
  := by
  rcases h' n hn with hn | ⟨hb, hc⟩
  · exact (h n hn).imp_right fun ⟨ha, hb⟩ => ⟨ha, Nat.lt_of_lt_of_le hb hbc⟩
  · exact .inr ⟨Nat.le_trans hab hb, hc⟩

theorem Grown.trans (h : Grown U V s t) (h' : Grown V W t u) :
  Grown U W s u where
  le := View.le_trans h.le h'.le
  vars := new_trans h.vars h'.vars h.varsSize h'.varsSize
  procs := new_trans h.procs h'.procs h.procsSize h'.procsSize
  cfgs := new_trans h.cfgs h'.cfgs h.cfgsSize h'.cfgsSize
  slots v hv hU := by
    have hV : ¬ V.vars v := fun hV => (h.vars v hV).elim hU fun h => Nat.not_lt.mpr h.1 hv
    rw [h'.slots v (Nat.lt_of_lt_of_le hv h.varsSize) hV, h.slots v hv hU]
  closures := h.closures.trans h'.closures
  varsSize := Nat.le_trans h.varsSize h'.varsSize
  cfgsSize := Nat.le_trans h.cfgsSize h'.cfgsSize

theorem Grown.of_slots (hsize : t.slots.size = s.slots.size)
    (hslots : ∀ v < s.slots.size, ¬ V.vars v → t.slots[v]? = s.slots[v]?)
    (hprocs : t.procs = s.procs) (hcfgs : t.cfgs = s.cfgs) :
  Grown V V s t where
  le := V.le_refl
  vars _ := .inl
  procs _ := .inl
  cfgs _ := .inl
  slots := hslots
  closures := hprocs ▸ prefix_refl _
  varsSize := Nat.le_of_eq hsize.symm
  cfgsSize := Nat.le_of_eq (congrArg Array.size hcfgs).symm

theorem Grown.newSlot (V : View) (s : Store) (slot : Slot) :
  Grown V V s (s.newSlot slot).2
  := by
  refine { Grown.refl V s with vars := fun _ => .inl, slots := ?_, varsSize := ?_ }
  · intro v hv _
    rw [Store.newSlot, Array.getElem?_push_lt hv, Array.getElem?_eq_getElem hv]
  · simp [Store.newSlot]

theorem Grown.newClosure (V : View) (s : Store) (c : Closure) :
  Grown V V s (s.newClosure c).2 where
  le := V.le_refl
  vars _ := .inl
  procs _ := .inl
  cfgs _ := .inl
  slots _ _ _ := rfl
  closures := (ContinuedBy.newClosure s c).procs
  varsSize := Nat.le_refl _
  cfgsSize := Nat.le_refl _

/-- Only what exists is in view. -/
structure Shows (s : Store) (V : View) : Prop where
  vars : ∀ v, V.vars v → v < s.slots.size
  procs : ∀ id, V.procs id → id < s.procs.size
  cfgs : ∀ id, V.cfgs id → id < s.cfgs.size

theorem Shows.grown (h : s.Shows V) (hgrown : Grown V W s t) :
  t.Shows W where
  vars v hv := (hgrown.vars v hv).elim (fun hv => Nat.lt_of_lt_of_le (h.vars v hv) hgrown.varsSize) (·.2)
  procs id hid := (hgrown.procs id hid).elim (fun hid => Nat.lt_of_lt_of_le (h.procs id hid) hgrown.procsSize) (·.2)
  cfgs id hid := (hgrown.cfgs id hid).elim (fun hid => Nat.lt_of_lt_of_le (h.cfgs id hid) hgrown.cfgsSize) (·.2)

theorem Grown.closure_eq (h : Grown V W s t) (hc : s.procs[id]? = some c) :
  t.procs[id]? = some c
  := by
  obtain ⟨_, hmore⟩ := h.closures
  rw [← Array.getElem?_toList] at hc ⊢
  rw [← hmore, List.getElem?_append_left (List.getElem?_eq_some_iff.mp hc).1, hc]

/-! ### Looking up -/

namespace Tame

section

variable (h : s.Tame V C)

include h

theorem field (id : RecordId) {f : Feature × Leaf} (hf : f ∈ (s.record id).fields) :
  f.2.In V
  := h.records _ (Array.mem_toList_iff.mp (record_mem (mem_map_of_mem hf))) f hf

theorem cell (id : CellId) :
  (s.cell id).In V
  := by
  rw [Store.cell, Array.getD_eq_getD_getElem?]
  cases hid : s.cells[id]? with
  | none => trivial
  | some content => exact h.cells content (Array.mem_of_getElem? hid)

theorem closure (hid : V.procs id) :
  (s.closure id).Tame V C
  := by
  rw [Store.closure, Array.getD_eq_getD_getElem?]
  cases hc : s.procs[id]? with
  | none => exact ⟨h.absent, by simp⟩
  | some c => exact h.closures id c hc hid

theorem cfg (id : CfgId) :
  (s.closure (s.cfg id).cfgtr).Tame V C ∧ ∀ v ∈ (s.cfg id).args, V.vars v
  := by
  rw [Store.cfg, Array.getD_eq_getD_getElem?]
  cases hid : s.cfgs[id]? with
  | none =>
    refine ⟨?_, by simp⟩
    rw [Option.getD_none, Store.closure, Array.getD_eq_getD_getElem?, Array.getElem?_eq_none (Nat.le_refl _)]
    exact ⟨h.absent, by simp⟩
  | some c =>
    obtain ⟨hcfgtr, hargs⟩ := h.cfgs c (Array.mem_of_getElem? hid)
    exact ⟨h.closure hcfgtr, hargs⟩

theorem cfgtr {id : CfgId} (hid : id < s.cfgs.size) :
  V.procs (s.cfg id).cfgtr
  := by
  rw [Store.cfg, Array.getD_eq_getD_getElem?, Array.getElem?_eq_getElem hid]
  exact (h.cfgs _ (Array.getElem_mem hid)).1

theorem follow (n : Nat) (hv : V.vars v) :
  V.vars (s.follow n v)
  := by
  fun_induction Store.follow s n v with
  | case1 | case3 => exact hv
  | case2 n v w hw ih => exact ih (h.slots v _ hw hv)

theorem root (hv : V.vars v) :
  V.vars (s.root v)
  := h.follow _ hv

theorem resolve {v : Value} (hv : v.In V) :
  (s.resolve v).In V
  := by
  cases v with
  | datum => exact hv
  | var =>
    rw [Store.resolve]
    split
    case h_1 d hd => exact h.slots _ _ hd (h.root hv)
    case h_2 => exact h.root hv

theorem datum? (hv : V.vars v) :
  ((s.datum? v).getD default).In V
  := by
  rw [Store.datum?]
  split
  case h_1 d hd => exact h.slots _ _ hd (h.root hv)
  case h_2 => trivial

end

end Tame

/-! ### Growing and changing -/

namespace Tame

variable (h : s.Tame V C)

include h

theorem widen (hle : V ≤ W) (hvars : ∀ v < s.slots.size, W.vars v → V.vars v)
    (hprocs : ∀ id < s.procs.size, W.procs id → V.procs id) :
  s.Tame W C where
  slots v slot hv hin := by
    have hlt := (Array.getElem?_eq_some_iff.mp hv).1
    exact (h.slots v slot hv (hvars v hlt hin)).mono hle
  records r hr f hf := (h.records r hr f hf).mono hle
  cells content hcontent := (h.cells content hcontent).mono hle
  closures id c hc hin := by
    have hlt := (Array.getElem?_eq_some_iff.mp hc).1
    exact (h.closures id c hc (hprocs id hlt hin)).mono hle
  cfgs c hc := by
    obtain ⟨hcfgtr, hargs⟩ := h.cfgs c hc
    exact ⟨hle.procs _ hcfgtr, fun v hv => hle.vars v (hargs v hv)⟩
  absent := h.absent

theorem newSlot (slot : Slot) (hslot : slot.In V) :
  (s.newSlot slot).2.Tame V C
  := by
  refine { h with slots := ?_ }
  intro v slot' hv hin
  rw [Store.newSlot, Array.getElem?_push] at hv
  split at hv
  · cases hv
    exact hslot
  · exact h.slots v slot' hv hin

theorem seeSlot (slot : Slot) (hslot : slot.In V) :
  s.Makes V C (s.newSlot slot) View.vars
  := by
  have hle := V.le_addVars (· = s.slots.size)
  have hwiden : s.Tame (V.addVars (· = s.slots.size)) C :=
    h.widen hle (fun v hv hin => hin.resolve_right (Nat.ne_of_lt hv)) fun _ _ => id
  refine ⟨_, hwiden.newSlot slot (hslot.mono hle), ?_, .inr rfl⟩
  refine { Grown.newSlot V s slot with le := hle, vars := ?_ }
  rintro v (hv | rfl)
  · exact .inl hv
  · exact .inr ⟨Nat.le_refl _, by simp [Store.newSlot]⟩

theorem newVar :
  s.Makes V C s.newVar View.vars
  := h.seeSlot .unbound trivial

theorem newBound {v : Value} (hv : v.In V) :
  s.Makes V C (s.newBound v) View.vars
  := by
  cases v with
  | var => exact ⟨V, h, .refl V s, h.root hv⟩
  | datum d => exact h.seeSlot (.bound d) hv

theorem newRecord {r : Record} (hr : ∀ f ∈ r.fields, f.2.In V) :
  (s.newRecord r).2.Tame V C ∧ Grown V V s (s.newRecord r).2
  := by
  refine ⟨{ h with records := ?_ }, .of_slots rfl (fun _ _ _ => rfl) rfl rfl⟩
  intro r' hr'
  rcases Array.mem_push.mp hr' with hr' | rfl
  · exact h.records r' hr'
  · exact hr

theorem newClosure (hc : c.Tame V C) :
  s.Makes V C (s.newClosure c) View.procs
  := by
  have hle := V.le_addProc s.procs.size
  have hwiden : s.Tame (V.addProc s.procs.size) C :=
    h.widen hle (fun _ _ => id) fun id hid hin => hin.resolve_right (Nat.ne_of_lt hid)
  refine ⟨_, { hwiden with closures := ?_ }, ?_, .inr rfl⟩
  · intro id c' hid hin
    rw [Store.newClosure, Array.getElem?_push] at hid
    split at hid
    · cases hid
      exact hc.mono hle
    · exact hwiden.closures id c' hid hin
  · refine { Grown.newClosure V s c with le := hle, procs := ?_ }
    rintro _ (hid | rfl)
    · exact .inl hid
    · exact .inr ⟨Nat.le_refl _, by simp [Store.newClosure]⟩

theorem newCfg {c : ActorCfg} (hcfgtr : V.procs c.cfgtr) (hargs : ∀ v ∈ c.args, V.vars v) :
  s.Makes V C (s.newCfg c) View.cfgs
  := by
  have hle := V.le_addCfg s.cfgs.size
  have hwiden : s.Tame (V.addCfg s.cfgs.size) C := h.widen hle (fun _ _ => id) fun _ _ => id
  refine ⟨_, { hwiden with cfgs := ?_ }, ?_, .inr rfl⟩
  · intro c' hc'
    rcases Array.mem_push.mp hc' with hc' | rfl
    · exact hwiden.cfgs c' hc'
    · exact ⟨hcfgtr, hargs⟩
  · refine { Grown.refl V s with le := hle, cfgs := ?_, cfgsSize := ?_ }
    · rintro _ (hid | rfl)
      · exact .inl hid
      · exact .inr ⟨Nat.le_refl _, by simp [Store.newCfg]⟩
    · simp [Store.newCfg]

theorem newCell (content : Leaf) (hcontent : content.In V) :
  (s.newCell content).2.Tame V C ∧ Grown V V s (s.newCell content).2
  := by
  refine ⟨{ h with cells := ?_ }, .of_slots rfl (fun _ _ _ => rfl) rfl rfl⟩
  intro content' hmem
  rcases Array.mem_push.mp hmem with hmem | rfl
  · exact h.cells content' hmem
  · exact hcontent

theorem setCell (id : CellId) (hcontent : content.In V) :
  (s.setCell id content).Tame V C ∧ Grown V V s (s.setCell id content)
  := by
  refine ⟨{ h with cells := ?_ }, .of_slots rfl (fun _ _ _ => rfl) rfl rfl⟩
  intro content' hmem
  rcases Array.mem_or_eq_of_mem_setIfInBounds hmem with hmem | rfl
  · exact h.cells content' hmem
  · exact hcontent

theorem hideClosure (c : Closure) (hnew : ¬ V.procs s.procs.size) :
  (s.newClosure c).2.Tame V C
  := by
  refine { h with closures := ?_ }
  intro id c' hid hin
  have hne : id ≠ s.procs.size := fun heq => hnew (heq ▸ hin)
  rw [Store.newClosure, Array.getElem?_push, if_neg hne] at hid
  exact h.closures id c' hid hin

theorem setHidden (hv : ¬ V.vars v) (slot : Slot) :
  (s.setSlot v slot).Tame V C
  := by
  refine { h with slots := ?_ }
  intro w slot' hw hin
  have hne : v ≠ w := fun heq => hv (heq ▸ hin)
  rw [Store.setSlot, Array.getElem?_setIfInBounds_ne hne] at hw
  exact h.slots w slot' hw hin

theorem setSlot (hv : V.vars v) (hslot : slot.In V) :
  (s.setSlot v slot).Tame V C ∧ Grown V V s (s.setSlot v slot)
  := by
  refine ⟨{ h with slots := ?_ }, .of_slots ?_ ?_ rfl rfl⟩
  · intro w slot' hw hin
    rw [Store.setSlot, Array.getElem?_setIfInBounds] at hw
    split at hw
    · split at hw
      · cases hw
        exact hslot
      · cases hw
    · exact h.slots w slot' hw hin
  · simp [Store.setSlot]
  · intro w _ hw
    rw [Store.setSlot, Array.getElem?_setIfInBounds_ne]
    rintro rfl
    exact hw hv

end Tame

theorem Tame.unify (h : s.Tame V C) {left right : Value} (hl : left.In V) (hr : right.In V) :
  (s.unify left right).2.Tame V C ∧ Grown V V s (s.unify left right).2
  := by
  refine unifyAll_invariant (I := fun t => t.Tame V C ∧ Grown V V s t)
    (fun t ht v hv => ht.1.resolve hv) (fun t ht id v hv => ?_) (fun t ht x hx w hw => ?_)
    ⟨h, .refl V s⟩ [] (forall_mem_singleton.mpr ⟨hl, hr⟩)
  · obtain ⟨f, hf, rfl⟩ := mem_map.mp hv
    exact (ht.1.field id hf).toValue
  · have hset : (t.assign x w).Tame V C ∧ Grown V V t (t.assign x w) := by
      cases w <;> exact ht.1.setSlot hx hw
    exact ⟨hset.1, ht.2.trans hset.2⟩

end

/-! ### Copying -/

section

variable {K K' : View} {ren : Renaming}

/-- What is to be looked at is in view. -/
def Visit.In (V : View) : Visit → Prop
  | .var v => V.vars v
  | _ => True

theorem captured_in (hid : (s.closure id).Tame V C) :
  ∀ v ∈ s.captured id, V.vars v
  := by
  rw [Store.captured, forall_mem_map]
  exact hid.env

theorem Tame.scalarVisits (h : s.Tame V C) (ha : a.In V) :
  ∀ visit ∈ s.scalarVisits a, visit.In V
  := by
  fun_cases Store.scalarVisits s a with
  | case1 | case2 => exact forall_mem_map.mpr (captured_in (h.closure ha))
  | case3 id =>
    rw [forall_mem_map, forall_mem_append]
    exact ⟨captured_in (h.cfg id).1, (h.cfg id).2⟩
  | case4 => exact forall_mem_singleton.mpr trivial
  | case5 => simp

theorem Tame.datumVisits (h : s.Tame V C) (hd : d.In V) :
  ∀ visit ∈ s.datumVisits d, visit.In V
  := by
  cases d with
  | scalar => exact h.scalarVisits hd
  | record id =>
    intro visit hvisit
    obtain ⟨⟨f, leaf⟩, hmem, hvisit⟩ := mem_flatMap.mp hvisit
    have hleaf : leaf.In V := h.field id hmem
    cases leaf with
    | var =>
      rw [mem_singleton.mp hvisit]
      exact hleaf
    | scalar => exact h.scalarVisits hleaf visit hvisit

theorem Tame.reach (h : s.Tame V C) {found : List VarId} {work : List Visit}
    (hfound : ∀ x ∈ found, V.vars x) (hwork : ∀ visit ∈ work, visit.In V) :
  ∀ x ∈ (s.reach found work).found, V.vars x
  := by
  fun_induction Store.reach s found work with
  | case1 | case2 | case6 => exact hfound
  | case3 _ v _ ih | case4 _ v _ _ ih =>
    exact ih hfound (forall_mem_cons.mp hwork).2
  | case5 _ v _ _ d hd ih =>
    obtain ⟨hv, hrest⟩ := forall_mem_cons.mp hwork
    have hroot : V.vars (s.root v) := h.root hv
    apply ih (forall_mem_cons.mpr ⟨hroot, hfound⟩)
    rw [forall_mem_append, forall_mem_cons]
    exact ⟨h.datumVisits (h.slots _ _ hd hroot), trivial, hrest⟩

/-- The copies of what is to be looked at are in view. -/
def Renaming.Into (ren : Renaming) (s : Store) (K : View) (visits : List Visit) : Prop :=
  ∀ v, .var v ∈ visits → K.vars (ren.apply s v)

theorem Renaming.Into.mono {visits : List Visit} (h : ren.Into s K visits) (hle : K ≤ K') :
  ren.Into s K' visits
  := fun v hv => hle.vars _ (h v hv)

theorem Tame.copyClosure (hout : out.Tame K C) (hid : (s.closure id).Tame V C)
    (hren : ∀ v ∈ s.captured id, K.vars (ren.apply s v)) :
  out.Makes K C (s.copyClosure ren id out) View.procs
  := by
  apply hout.newClosure
  constructor
  · exact (ren.definition_closure s (s.closure id)).symm ▸ hid.definition
  · rw [forall_mem_map]
    exact fun b hb => hren b.2 (mem_map_of_mem hb)

variable (hs : s.Tame V C) (hout : out.Tame K C)

include hs hout

theorem Tame.copyScalar (ha : a.In V) (hren : ren.Into s K (s.scalarVisits a)) :
  out.Makes K C (s.copyScalar ren a out) fun K' a => a.In K'
  := by
  cases a with
  | proc p =>
    cases p with
    | closure =>
      exact hout.copyClosure (hs.closure ha) fun v hv => hren v (mem_map_of_mem hv)
    | builtin | iterator => exact ⟨K, hout, .refl K out, trivial⟩
  | actorCfgtr =>
    exact hout.copyClosure (hs.closure ha) fun v hv => hren v (mem_map_of_mem hv)
  | actorCfg id =>
    have hmem {v : VarId} (hv : v ∈ s.captured (s.cfg id).cfgtr ++ (s.cfg id).args) :
        K.vars (ren.apply s v) := hren v (mem_map_of_mem hv)
    have hcaptured : ∀ v ∈ s.captured (s.cfg id).cfgtr, K.vars (ren.apply s v) :=
      fun v hv => hmem (mem_append_left _ hv)
    obtain ⟨_, htame, hgrown, hid⟩ := hout.copyClosure (hs.cfg id).1 hcaptured
    obtain ⟨K'', htame', hgrown', hcfg⟩ := htame.newCfg (c := ⟨_, (s.cfg id).args.map (ren.apply s)⟩) hid
      (forall_mem_map.mpr fun v hv => hgrown.le.vars _ (hmem (mem_append_right _ hv)))
    exact ⟨K'', htame', hgrown.trans hgrown', hcfg⟩
  | lit | token | actor | cell => exact ⟨K, hout, .refl K out, trivial⟩

theorem Tame.copyFields {fields : List (Feature × Leaf)} (hfields : ∀ f ∈ fields, f.2.In V)
    (hren : ∀ f ∈ fields, ren.Into s K (s.leafVisits f.2)) :
  out.Makes K C (s.copyFields ren fields out) fun K' copies => ∀ f ∈ copies, f.2.In K'
  := by
  induction fields generalizing out K with
  | nil => exact ⟨K, hout, .refl K out, by simp [Store.copyFields]⟩
  | cons field _ ih =>
    obtain ⟨f, leaf⟩ := field
    obtain ⟨hleaf, hrest⟩ := forall_mem_cons.mp hfields
    obtain ⟨hrenLeaf, hrenRest⟩ := forall_mem_cons.mp hren
    cases leaf with
    | var v =>
      obtain ⟨K', htame, hgrown, hcopies⟩ := ih hout hrest hrenRest
      have hv := hgrown.le.vars _ (hrenLeaf v (mem_singleton_self _))
      exact ⟨K', htame, hgrown, forall_mem_cons.mpr ⟨hv, hcopies⟩⟩
    | scalar =>
      obtain ⟨_, htame, hgrown, ha⟩ := hs.copyScalar hout hleaf hrenLeaf
      obtain ⟨K'', htame', hgrown', hcopies⟩ :=
        ih htame hrest fun f hf => (hrenRest f hf).mono hgrown.le
      exact ⟨K'', htame', hgrown.trans hgrown', forall_mem_cons.mpr ⟨ha.mono hgrown'.le, hcopies⟩⟩

theorem Tame.copyDatum (hd : d.In V) (hren : ren.Into s K (s.datumVisits d)) :
  out.Makes K C (s.copyDatum ren d out) fun K' d => d.In K'
  := by
  cases d with
  | scalar => exact hs.copyScalar hout hd hren
  | record id =>
    obtain ⟨K', htame, hgrown, hcopies⟩ := hs.copyFields hout (fun f hf => hs.field id hf)
      fun f hf v hv => hren v (mem_flatMap.mpr ⟨f, hf, hv⟩)
    obtain ⟨htame', hgrown'⟩ := htame.newRecord (r := ⟨(s.record id).label, _⟩) hcopies
    exact ⟨K', htame', hgrown.trans hgrown', trivial⟩

theorem Tame.copyVars (opened : List VarId) {vars : List VarId} (hvars : ∀ x ∈ vars, V.vars x)
    (hren : ∀ x ∈ vars, x ∉ opened → ren.Into s K (s.datumVisits ((s.datum? x).getD default))) :
  ∃ K', (s.copyVars ren opened vars out).Tame K' C ∧ Grown K K' out (s.copyVars ren opened vars out)
  := by
  induction vars generalizing out K with
  | nil => exact ⟨K, hout, .refl K out⟩
  | cons x _ ih =>
    obtain ⟨hx, hrest⟩ := forall_mem_cons.mp hvars
    obtain ⟨hrenHere, hrenRest⟩ := forall_mem_cons.mp hren
    rw [Store.copyVars]
    split
    case isTrue =>
      obtain ⟨K', htame, hgrown⟩ := ih (hout.newSlot .unbound trivial) hrest hrenRest
      exact ⟨K', htame, (Grown.newSlot K out _).trans hgrown⟩
    case isFalse hopened =>
      obtain ⟨K₁, htame, hgrown, hd⟩ :=
        hs.copyDatum hout (hs.datum? hx) (hrenHere (by simpa using hopened))
      obtain ⟨K', htame', hgrown'⟩ := ih (htame.newSlot (.bound _) hd) hrest
        fun y hy hopened => (hrenRest y hy hopened).mono hgrown.le
      exact ⟨K', htame', hgrown.trans ((Grown.newSlot K₁ _ _).trans hgrown')⟩

theorem Tame.copyValue {v : Value} (hv : v.In V) (hren : ren.Into s K (s.valueVisits v)) :
  out.Makes K C (s.copyValue ren out v) fun K' w => w.In K'
  := by
  cases v with
  | var x => exact ⟨K, hout, .refl K out, hren x (mem_singleton_self _)⟩
  | datum => exact hs.copyDatum hout hv hren

theorem Tame.copyInto {v : Value} (hv : v.In V) :
  out.Makes K C (s.copyInto v out) fun K' result => ∀ w, result = .ok w → w.In K'
  := by
  have hsearch := s.complete_reach_nil (s.valueVisits v)
  generalize hr : s.reach [] (s.valueVisits v) = r at hsearch
  have hfound : ∀ x ∈ r.found.reverse, V.vars x := by
    have hwork : ∀ visit ∈ s.valueVisits v, visit.In V := by
      cases v with
      | var => exact forall_mem_singleton.mpr hv
      | datum => exact hs.datumVisits hv
    have hall := hs.reach (forall_mem_nil _) hwork
    rw [hr] at hall
    exact fun x hx => hall x (mem_reverse.mp hx)
  -- the places of the copies are in view before the copies are made
  let K₀ := K.addVars fun x => out.slots.size ≤ x ∧ x < out.slots.size + r.found.length
  have hle : K ≤ K₀ := K.le_addVars _
  have hout₀ : out.Tame K₀ C :=
    hout.widen hle (fun x hx hin => hin.resolve_right fun h => Nat.not_lt.mpr h.1 hx) fun _ _ => id
  have hplace {x : VarId} (hx : s.root x ∈ r.found) : K₀.vars ((r.renaming out).apply s x) := by
    have hlt := idxOf_lt_length_of_mem (mem_reverse.mpr hx)
    rw [length_reverse] at hlt
    exact .inr ⟨Nat.le_add_right .., Nat.add_lt_add_left hlt _⟩
  have hinto : ∀ x ∈ r.found.reverse, x ∉ r.opened →
      (r.renaming out).Into s K₀ (s.datumVisits ((s.datum? x).getD default)) := by
    intro x hx hopened y hy
    obtain ⟨d, hd, hall⟩ := hsearch.finished x (mem_reverse.mp hx) hopened
    rw [datum?_of_bound hd] at hy
    exact hplace (hall (.var y) hy)
  obtain ⟨K₁, htame, hgrown₀⟩ := hs.copyVars hout₀ r.opened hfound hinto
  have hgrown : Grown K K₁ out (s.copyFound r out) := by
    refine { hgrown₀ with le := View.le_trans hle hgrown₀.le, vars := ?_, slots := ?_ }
    · intro x hx
      rcases hgrown₀.vars x hx with (hx | hx) | hx
      · exact .inl hx
      · exact .inr ⟨hx.1, (s.continuedBy_copyFound r out).2 ▸ hx.2⟩
      · exact .inr hx
    · intro x hx hin
      exact hgrown₀.slots x hx fun h => h.elim hin fun h => Nat.not_lt.mpr h.1 hx
  rcases s.copyInto_cases v out hr with ⟨e, -, hrun⟩ | ⟨hnone, hrun⟩
  · rw [hrun]
    exact ⟨K₁, htame, hgrown, by simp⟩
  · rw [hrun]
    have hinto : (r.renaming out).Into s K₁ (s.valueVisits v) :=
      fun y hy => hgrown₀.le.vars _ (hplace ((hsearch.settled hnone).2 (.var y) hy))
    obtain ⟨K₂, htame', hgrown', hw⟩ := hs.copyValue htame hv hinto
    refine ⟨K₂, htame', hgrown.trans hgrown', ?_⟩
    rintro w ⟨⟩
    exact hw

end

end Store

theorem Slot.in_all (slot : Slot) :
  slot.In (.all names)
  := by
  cases slot with
  | unbound | link => trivial
  | bound d => exact (Value.datum d).in_all

theorem Store.tame_all (s : Store) (names : Kernel.Ident → Prop) :
  s.Tame (.all names) fun _ => True where
  slots _ slot _ _ := slot.in_all
  records _ _ f _ := f.2.in_all
  cells content _ := content.in_all
  closures _ _ _ _ := ⟨trivial, fun _ _ => trivial⟩
  cfgs _ _ := ⟨trivial, fun _ _ => trivial⟩
  absent := trivial

/-! ### Valid stores -/

namespace Store

variable {t : Store}

/-- All variables of the store are in view. -/
def inRange (s : Store) : View := { View.all fun _ => True with vars := fun v => v < s.slots.size }

theorem Valid.tame (hs : s.Valid) :
  s.Tame s.inRange fun _ => True where
  slots v slot hslot hv := by
    cases slot with
    | unbound => trivial
    | bound d => exact @Value.in_all (fun _ => True) (.datum d)
    | link w =>
      obtain ⟨n, r, hlead⟩ := hs.leads v hv
      cases hlead with
      | stop hr hend => exact absurd (Option.some.inj (hr.symm.trans hslot)) (hend w)
      | link hv hrest =>
        cases hslot.symm.trans hv
        exact hrest.lt_size
  records r hr f hf := by
    cases hleaf : f.2 with
    | scalar a => exact @Scalar.in_all (fun _ => True) a
    | var v => exact hs.fields r hr v (mem_map.mpr ⟨f, hf, congrArg Leaf.toValue hleaf⟩)
  cells content hcontent := by
    cases content with
    | scalar a => exact @Scalar.in_all (fun _ => True) a
    | var v => exact hs.cells _ hcontent v rfl
  closures id c hc _ := ⟨trivial, hs.captured c (Array.mem_of_getElem? hc)⟩
  cfgs c hc := ⟨trivial, hs.args c hc⟩
  absent := trivial

/-- A store that has grown stays valid if its new variables stand for no other ones. -/
theorem Valid.grown (hs : s.Valid) (htame : t.Tame W fun _ => True) (hgrown : Grown s.inRange W s t)
    (hslots : s.slots.toList <+: t.slots.toList) (hrecords : s.records.size ≤ t.records.size)
    (hnew : ∀ x slot, s.slots.size ≤ x → t.slots[x]? = some slot → t.EndsWithin slot) :
  t.Valid
  := by
  have hvars (v : VarId) (hv : W.vars v) : v < t.slots.size :=
    (hgrown.vars v hv).elim (fun h => Nat.lt_of_lt_of_le h hgrown.varsSize) (·.2)
  constructor
  case leads =>
    intro v hv
    rcases Nat.lt_or_ge v s.slots.size with hlt | hge
    · obtain ⟨n, r, hlead⟩ := hs.leads v hlt
      exact ⟨n, r, ContinuedBy.leads hslots hlead⟩
    · have hslot : t.slots[v]? = some t.slots[v] := Array.getElem?_eq_getElem hv
      refine ⟨0, v, .stop hslot fun w hw => ?_⟩
      rw [hw] at hslot
      exact hnew v _ hge hslot
  case bound =>
    intro v id hid
    rcases Nat.lt_or_ge v s.slots.size with hlt | hge
    · have hold : s.slots[v]? = some s.slots[v] := Array.getElem?_eq_getElem hlt
      rw [ContinuedBy.getElem?_eq hslots hold, ← hold] at hid
      exact Nat.lt_of_lt_of_le (hs.bound v id hid) hrecords
    · exact hnew v _ hge hid
  case fields =>
    intro r hr v hv
    obtain ⟨⟨f, leaf⟩, hf, heq⟩ := mem_map.mp hv
    cases leaf with
    | scalar => cases heq
    | var =>
      cases heq
      exact hvars v (htame.records r hr _ hf)
  case cells =>
    rintro _ hcontent v rfl
    exact hvars v (htame.cells _ hcontent)
  case captured =>
    intro c hc b hb
    obtain ⟨id, hid⟩ := Array.mem_iff_getElem?.mp hc
    exact hvars _ ((htame.closures id c hid (hgrown.le.procs id trivial)).env b hb)
  case args => exact fun c hc v hv => hvars v ((htame.cfgs c hc).2 v hv)

theorem valid_copyInto (s : Store) (v : Value) (hout : out.Valid) :
  out.ContinuedBy (s.copyInto v out).2 ∧ (s.copyInto v out).2.Valid
  := by
  have hcontinued := s.continuedBy_copyInto v out
  obtain ⟨K, htame, hgrown, -⟩ := (s.tame_all fun _ => True).copyInto hout.tame v.in_all
  refine ⟨hcontinued, hout.grown htame hgrown hcontinued.slots (ContinuedBy.size_le hcontinued.records) ?_⟩
  intro x slot hx hslot
  obtain ⟨y, -, hcopy⟩ := slotCopy_copyFound (s.addsContent_copyInto v out) hx hslot
  cases slot with
  | unbound => trivial
  | link => exact hcopy
  | bound => exact hcopy.2.within

end Store

/-! ### Snapshots -/

/-- The closures of the snapshot obey the condition. -/
abbrev Portable.Tame (C : Definition → Prop) (p : Portable) : Prop :=
  p.store.Tame .full C

namespace Store

theorem Tame.empty (hC : C (Closure.definition {})) (V : View) :
  ({} : Store).Tame V C
  := by
  constructor <;> simp [hC]

theorem Tame.exportValue (h : s.Tame V C) {v : Value} (hv : v.In V) (hp : s.exportValue v = .ok p) :
  p.Tame C
  := by
  obtain ⟨K, hcopy, hgrown, -⟩ := h.copyInto (.empty h.absent .full) hv
  obtain rfl := View.eq_full hgrown.le
  rw [Store.exportValue] at hp
  split at hp
  case h_1 value store hrun =>
    cases hp
    rwa [hrun] at hcopy
  case h_2 => cases hp

theorem Tame.importValue (h : s.Tame V C) (hp : p.Tame C) :
  s.Makes V C (s.importValue p) fun W result => ∀ w, result = .ok w → w.In W
  := hp.copyInto h p.value.in_all

end Store

end ActorLang
