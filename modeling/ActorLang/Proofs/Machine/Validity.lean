import ActorLang.Evaluation
import ActorLang.Proofs.Machine.Statements

/-!
# Valid machines

The machine of a valid session mentions only variables that its store has, and all chains of links
end.  `Sound σ x P` says that a computation that begins in `σ` keeps this and only extends the
store, and waits only for variables that are not bound.
-/

namespace ActorLang

open Kernel (Ident Operand BinaryPrim Stmt)
open List

/-! ### What exists in a store -/

def Env.Within (s : Store) (env : Env) : Prop := ∀ b ∈ env, b.2 < s.slots.size

def Frame.Within (s : Store) : Frame → Prop
  | .stmt _ env => env.Within s
  | .handler _ _ env => env.Within s

def Record.Within (s : Store) (r : Record) : Prop := ∀ v ∈ r.values, v.Within s

def Next.Within (s : Store) : Next → Prop
  | .rest | .jump _ => True
  | .enter _ env | .enterAll _ env | .guarded _ _ _ env => env.Within s

variable {v value : Value} {s t : Store} {env bindings env' : Env} {frame : Frame}
  {next next' : Next} {σ σ' τ : Session} {m : Machine}

theorem Store.Valid.lt_newBound (hs : s.Valid) (hv : v.Within s) :
  (s.newBound v).1 < (s.newBound v).2.slots.size
  := (hs.wellFormed.newBound hv).2.1

section Mono

variable {s t : Store}

theorem Env.Within.mono (h : env.Within s) (hle : t.Outlives s) :
  env.Within t
  := fun b hb => hle.lt (h b hb)

theorem Env.Within.extend (h : env.Within s) (hb : bindings.Within s) :
  (env.extend bindings).Within s
  := by
  exact forall_mem_append.mpr ⟨fun b hmem => hb b (mem_reverse.mp hmem), h⟩

theorem Env.Within.lookup {name : Ident} {v : VarId} (h : env.Within s) (hv : env.lookup name = some v) :
  v < s.slots.size
  := h _ (Env.mem_of_lookup hv)

theorem Frame.Within.mono (h : frame.Within s) (hle : t.Outlives s) :
  frame.Within t
  := by
  cases frame with
  | stmt | handler => exact Env.Within.mono h hle

end Mono

/-- The machine mentions only variables that it has. -/
structure Machine.Valid (m : Machine) : Prop where
  store : m.store.Valid
  pending : ∀ b ∈ m.pending, b.2 < m.store.slots.size
  root : m.root.Within m.store

/-! ### Statements -/

def Mode.sound : Mode where
  valid := True
  iterators _ := True
  actors := True

theorem Exec.Follow.within {V : View} {C : Definition → Prop} {s s' : Stmt}
    (h : Follow V C env env' s s' next next') (ht : ∀ v, V.vars v → v < t.slots.size) (henv : env.Within t) :
  next.Within t
  := by
  have happlied {next : Next} (h : Applied V C next) : next.Within t := by
    cases h with
    | rest => trivial
    | enter hc hargs _ =>
      refine Env.Within.extend (forall_mem_nil _) (forall_mem_append.mpr ⟨?_, ?_⟩)
      · exact fun b hb => ht _ (hc.env b hb)
      · exact fun b hb => ht _ (hargs _ (of_mem_zip hb).2)
  cases h with
  | quiet | jump => trivial
  | apply h | selectApply h => exact happlied h
  | scope h | matched h => exact henv.extend fun b hb => ht _ (h.inView b hb)
  | seq | yes | no | unmatched | attempt => exact henv

theorem Machine.Valid.orderly (h : σ.Valid) :
  σ.Orderly .sound σ.store.inRange fun _ => True where
  tame := ⟨⟨h.store.tame, h.pending, (σ.tame_all fun _ => True).machine.spawns⟩, (σ.tame_all fun _ => True).world⟩
  fits := σ.store.fits_of_all (fun _ => trivial) ⟨trivial, trivial⟩
  fresh _ _ _ := trivial
  sound _ := ⟨h.store, fun _ => id⟩
  alone := .inl trivial

/-! ### Steps -/

/-- The machine is valid, and so is what it has to do. -/
structure Machine.Consistent (m : Machine) : Prop extends m.Valid where
  stack : ∀ frame ∈ m.stack, frame.Within m.store

theorem Frame.within_of_next (h : next.Within s) :
  ∀ frame ∈ next.frames, frame.Within s
  := by
  cases next with
  | rest | jump => exact forall_mem_nil _
  | enter => exact forall_mem_singleton.mpr h
  | enterAll =>
    intro _ hframe
    obtain ⟨s, -, rfl⟩ := mem_map.mp hframe
    exact h
  | guarded =>
    exact forall_mem_cons.mpr ⟨h, forall_mem_singleton.mpr h⟩

theorem Record.within_error (s : Store) (name message : String) :
  (Record.error name message).Within s
  := by
  simp [Record.Within, Record.values, Record.error, Leaf.toValue, Leaf.lit, Value.Within, Value.scalar]

namespace Machine

theorem Consistent.withStack (h : m.Consistent) {stack : Stack} (hstack : ∀ frame ∈ stack, frame.Within m.store) :
  { m with stack }.Consistent
  := ⟨⟨h.store, h.pending, h.root⟩, hstack⟩

theorem Consistent.onStore {α : Type} (h : m.Consistent) {f : Store → α × Store} (op : Store.Operation)
    (hop : op.Admissible m.store) (hf : (f m.store).2 = op.run m.store) :
  (m.onStore f).2.Consistent ∧ (m.onStore f).2.store.Outlives m.store
  := by
  have houtlives := h.store.outlives_run hop
  have hvalid := (h.store.run hop).2
  rw [← hf] at houtlives hvalid
  exact ⟨⟨⟨hvalid, fun b hb => houtlives.lt (h.pending b hb), h.root.mono houtlives⟩,
    fun frame hframe => (h.stack frame hframe).mono houtlives⟩, houtlives⟩

theorem Consistent.push (h : m.Consistent) (s : Stmt) (henv : env.Within m.store) :
  (m.push s env).Consistent
  := h.withStack (Stack.forall_push h.stack henv)

theorem Consistent.unwind (h : m.Consistent) (hv : value.Within m.store) :
  (m.unwind value).2.Consistent ∧ (m.unwind value).2.store.Outlives m.store
  := by
  cases hbelow : handlerBelow m.stack with
  | none =>
    rw [unwind_of_handlerBelow_none hbelow]
    exact ⟨h.withStack (forall_mem_nil _), .refl _⟩
  | some found =>
    obtain ⟨_, s, _, below⟩ := found
    rw [unwind_of_handlerBelow hbelow]
    have hframes := fun frame hframe => h.stack frame ((handlerBelow_suffix hbelow).subset hframe)
    obtain ⟨hhandler, hrest⟩ := forall_mem_cons.mp hframes
    have hbelow : { m with stack := below }.Consistent := h.withStack hrest
    obtain ⟨hconsistent, houtlives⟩ := hbelow.onStore (.newBound value) hv (f := (·.newBound value)) rfl
    refine ⟨hconsistent.push s ?_, houtlives⟩
    exact (Env.Within.mono hhandler houtlives).extend (forall_mem_singleton.mpr (h.store.lt_newBound hv))

end Machine

namespace Session

theorem consistent_raise (h : σ.Consistent) (f : Fault) :
  (σ.raise f).2.Consistent ∧ (σ.raise f).2.store.Outlives σ.store
  := by
  obtain ⟨hconsistent, houtlives⟩ :=
    h.onStore (.newRecord f.record) (Record.within_error _ _ _) (f := (·.newRecord f.record)) rfl
  have hvalue : (σ.faultValue f).1.Within (σ.faultValue f).2.store := by
    simp [Machine.faultValue, Machine.onStore, Store.newRecord, Value.record, Value.Within]
  obtain ⟨hconsistent', houtlives'⟩ := Machine.Consistent.unwind hconsistent hvalue
  exact ⟨hconsistent', houtlives.trans houtlives'⟩

theorem consistent_proceed (h : σ.Consistent) (hnext : next.Within σ.store) :
  (σ.proceed next).2.Consistent ∧ (σ.proceed next).2.store.Outlives σ.store
  := by
  rw [proceed]
  split
  next stack hon =>
    exact ⟨h.withStack (Next.forall_onStack h.stack (Frame.within_of_next hnext) hon), .refl _⟩
  next f hon => exact consistent_raise (σ := σ.withStack []) (h.withStack (forall_mem_nil _)) f

theorem consistent_interrupt (h : σ.Consistent) {e : Interrupt}
    (hframe : frame.Within σ.store) (he : ∀ v, e = .throw v → v.Within σ.store) :
  (σ.interrupt frame e).2.Consistent ∧ (σ.interrupt frame e).2.store.Outlives σ.store
  := by
  cases e with
  | suspend => exact ⟨h.withStack (forall_mem_cons.mpr ⟨hframe, h.stack⟩), .refl _⟩
  | throw value => exact h.unwind (he value rfl)
  | fault f => exact consistent_raise h f

theorem Executes.sound {s : Stmt} {rest : Stack} {result : Except Interrupt Next}
    (h : σ.Executes s env rest result σ') (hσ : σ.Consistent) :
  σ'.Consistent ∧ σ'.store.Outlives σ.store ∧ env.Within σ'.store ∧
    (∀ next, result = .ok next → next.Within σ'.store) ∧
    (∀ v, result = .error (.suspend v) → σ'.store.slots[v]? = some .unbound) ∧
    ∀ v, result = .error (.throw v) → v.Within σ'.store
  := by
  have hframes : ∀ frame ∈ Frame.stmt s env :: rest, frame.Within σ.store := h.stack ▸ hσ.stack
  obtain ⟨henv, hrest⟩ := forall_mem_cons.mp hframes
  have hpopped : (σ.popped rest).machine.Valid := ⟨hσ.store, hσ.pending, hσ.root⟩
  have haligned : Exec.Aligned σ.store.inRange (fun _ => True) env env s s :=
    Exec.aligned_self (fun x _ => Exec.sameVar_self (V := σ.store.inRange) (fun _ => trivial) henv x)
      fun _ _ _ => trivial
  obtain ⟨r, τ, W, hrun, hτ, hgrown, hnext, herror⟩ := haligned.execute trivial hpopped.orderly
  obtain ⟨rfl, rfl⟩ := Prod.mk.inj (hrun.symm.trans h.run)
  obtain ⟨hstore, hvars⟩ := hτ.sound trivial
  have houtlives : τ.store.Outlives σ.store := hgrown.outlives trivial
  have henv' := Env.Within.mono henv houtlives
  have hroot : τ.root = σ.root := congrArg (·.1) hgrown.settings
  refine ⟨⟨⟨hstore, ?_, ?_⟩, ?_⟩, houtlives, henv', ?_, ?_, ?_⟩
  · exact fun b hb => hvars _ (hτ.tame.machine.pending b hb)
  · exact hroot ▸ hσ.root.mono houtlives
  · rw [hgrown.stack]
    exact fun frame hframe => (hrest frame hframe).mono houtlives
  · exact fun next hr => (hnext next hr).within hvars henv'
  · exact fun v hr => (herror _ hr).2 trivial
  · exact fun v hr => (herror _ hr).2.within trivial _ hvars

theorem consistent_step (h : σ.Consistent) :
  σ.step.2.Consistent ∧ σ.step.2.store.Outlives σ.store
  := by
  have hstepped := σ.stepped_step
  generalize σ.step = stepped at hstepped
  cases hstepped with
  | done _ => exact ⟨h, .refl _⟩
  | leave hstack =>
    have hframes := h.stack
    rw [hstack] at hframes
    exact ⟨h.withStack (forall_mem_cons.mp hframes).2, .refl _⟩
  | limit _ _ =>
    have hempty : (σ.withStack []).Consistent := h.withStack (forall_mem_nil _)
    exact hempty.onStore (.newRecord (Fault.stepLimit σ.maxSteps).record)
      (Record.within_error _ _ _) (f := (·.newRecord (Fault.stepLimit σ.maxSteps).record)) rfl
  | @proceed s env rest next σ' hstack hlimit hrun =>
    have hexecutes : σ.Executes s env rest (.ok next) σ' := ⟨hstack, hlimit, hrun⟩
    obtain ⟨hσ', houtlives, -, hnext, -, -⟩ := hexecutes.sound h
    obtain ⟨hconsistent, houtlives'⟩ := consistent_proceed hσ' (hnext next rfl)
    exact ⟨hconsistent, houtlives.trans houtlives'⟩
  | @interrupt s env rest e σ' hstack hlimit hrun =>
    have hexecutes : σ.Executes s env rest (.error e) σ' := ⟨hstack, hlimit, hrun⟩
    obtain ⟨hσ', houtlives, henv, -, -, hthrows⟩ := hexecutes.sound h
    have hframe : (Frame.stmt s env).Within σ'.store := henv
    obtain ⟨hconsistent, houtlives'⟩ :=
      consistent_interrupt hσ' hframe fun v hv => hthrows v (congrArg _ hv)
    exact ⟨hconsistent, houtlives.trans houtlives'⟩

end Session

/-! ### Hosts -/

namespace Machine

theorem Consistent.throwLater (h : m.Consistent) (f : Fault) :
  (m.throwLater f).Consistent ∧ (m.throwLater f).store.Outlives m.store
  := by
  obtain ⟨hrecord, houtlives⟩ :=
    h.onStore (.newRecord f.record) (Record.within_error _ _ _) (f := (·.newRecord f.record)) rfl
  have hvalue : (Value.record m.store.records.size).Within (m.onStore (·.newRecord f.record)).2.store := by
    simp [Machine.onStore, Store.newRecord, Value.record, Value.Within]
  obtain ⟨hbound, houtlives'⟩ := hrecord.onStore (.newBound (.record m.store.records.size)) hvalue
    (f := (·.newBound (.record m.store.records.size))) rfl
  refine ⟨hbound.push _ ?_, houtlives.trans houtlives'⟩
  refine Env.Within.extend (forall_mem_nil _) (forall_mem_singleton.mpr ?_)
  exact hrecord.store.lt_newBound hvalue

theorem Consistent.respond (h : m.Consistent) (id : Nat) (p : Portable) :
  (m.respond id p).Consistent ∧ (m.respond id p).store.Outlives m.store
  := by
  rcases m.respond_cases id p with ⟨-, heq⟩ | ⟨v, store, hv, hstore, heq⟩
  · rw [heq]
    exact ⟨h, .refl _⟩
  · have hm : { m with pending := m.pending.filter (·.1 != id) }.Consistent :=
      ⟨⟨h.store, fun b hb => h.pending b (mem_of_mem_filter hb), h.root⟩, h.stack⟩
    obtain ⟨himported, houtlives⟩ := hm.onStore (.importValue p) trivial rfl
    obtain ⟨htaken, houtlives⟩ : (m.taking id store).Consistent ∧ store.Outlives m.store := by
      rcases hstore with rfl | ⟨value, hok, rfl⟩
      · exact ⟨himported, houtlives⟩
      · obtain ⟨_, hmirror, hcopy⟩ := Store.mirrored_copyInto hok
        obtain ⟨hunified, houtlives'⟩ := himported.onStore (.unify (.var v) value)
          ⟨houtlives.lt (h.pending (id, v) hv), hcopy.within hmirror⟩ (f := (·.unify (.var v) value)) rfl
        exact ⟨hunified, houtlives.trans houtlives'⟩
    rcases heq with heq | ⟨f, heq⟩
    · rw [heq]
      exact ⟨htaken, houtlives⟩
    · rw [heq]
      obtain ⟨hthrown, houtlives'⟩ := htaken.throwLater f
      exact ⟨hthrown, houtlives.trans houtlives'⟩

theorem Consistent.define (h : m.Consistent) (hv : v.Within m.store) (name : Ident) :
  (m.define name v).Consistent
  := by
  obtain ⟨hbound, -⟩ := h.onStore (.newBound v) hv (f := (·.newBound v)) rfl
  refine ⟨⟨hbound.store, hbound.pending, ?_⟩, hbound.stack⟩
  exact hbound.root.extend (forall_mem_singleton.mpr (h.store.lt_newBound hv))

theorem consistent_create (maxSteps : Nat) (self : Option ActorId) :
  (create maxSteps self).Consistent
  := by
  refine create_induction ⟨⟨.empty, forall_mem_nil _, forall_mem_nil _⟩, forall_mem_nil _⟩ ?_ ?_
  · intro m name r hr hm
    have hwithin : r.Within m.store := by
      rw [Record.Within, Record.values, forall_mem_map]
      intro f hf
      obtain ⟨_, _, hleaf⟩ := hr f hf
      rw [hleaf]
      trivial
    obtain ⟨hrecord, -⟩ := hm.onStore (.newRecord r) hwithin (f := (·.newRecord r)) rfl
    refine hrecord.define ?_ name
    simp [Machine.onStore, Store.newRecord, Value.record, Value.Within]
  · intro m name owner b hm
    exact hm.define (v := .scalar (.proc (.builtin owner b))) trivial name

theorem Consistent.load (h : m.Consistent) (program : Stmt) :
  (m.load program).2.Consistent
  := by
  obtain ⟨hvar, -⟩ := h.onStore .newVar trivial rfl
  have hdeclared : (m.declare Kernel.programResult).2.Consistent := by
    refine ⟨⟨hvar.store, hvar.pending, ?_⟩, hvar.stack⟩
    refine hvar.root.extend (forall_mem_singleton.mpr ?_)
    simp [Machine.onStore, Store.newVar, Store.newSlot]
  exact hdeclared.push program hdeclared.root

end Machine

namespace Session

/-- What can happen to a machine that is at work: it takes a step, or its host delivers a response, does something
to the store, or changes what is not the machine's alone. -/
inductive Happens (σ : Session) : Session → Prop where
  | step : Happens σ σ.step.2
  | respond (id : Nat) (p : Portable) : Happens σ { σ with machine := σ.respond id p }
  | operation {op : Store.Operation} (hop : op.Admissible σ.store) :
      Happens σ (σ.withStore (op.run σ.store))
  | host (steps : Nat) (spawns : List Spawn) (w : World) : Happens σ ⟨{ σ.machine with steps, spawns }, w⟩

theorem Happens.consistent (h : σ.Happens τ) (hσ : σ.Consistent) :
  τ.Consistent ∧ τ.store.Outlives σ.store
  := by
  cases h with
  | step => exact consistent_step hσ
  | respond id p => exact hσ.respond id p
  | @operation op hop => exact hσ.onStore (f := fun s => ((), op.run s)) op hop rfl
  | host => exact ⟨⟨⟨hσ.store, hσ.pending, hσ.root⟩, hσ.stack⟩, .refl _⟩

end Session

end ActorLang
