import ActorLang.Machine.Start
import ActorLang.Proofs.Machine.Agreement
import ActorLang.Proofs.Store.Records

/-!
# Steps of a machine

`Stepped` lists all that a step can do: it takes frames off the stack, and puts there what comes
next or the handler of something thrown.  Throwing keeps a session tame, and so does what its host
does to a machine between the steps.
-/

namespace ActorLang

open Kernel (Ident Stmt)
open List

/-! ### Stacks -/

variable {P : Frame → Prop} {frame : Frame} {stack below stack' : Stack} {next : Next} {f : Fault}

def Frame.catch? : Frame → Option Nat
  | .stmt (.jumpCatch label) _ => some label
  | _ => none

theorem Frame.catch?_eq_some {label : Nat} (h : frame.catch? = some label) :
  ∃ env, frame = .stmt (.jumpCatch label) env
  := by
  fun_cases catch? frame with
  | case1 _ env =>
    cases h
    exact ⟨env, rfl⟩
  | case2 => simp_all [catch?]

namespace Stack

theorem forall_push {s : Stmt} {env : Env} (h : ∀ frame ∈ stack, P frame) (hs : P (.stmt s env)) :
  ∀ frame ∈ stack.push s env, P frame
  := by
  have hcons : ∀ frame ∈ Frame.stmt s env :: stack, P frame :=
    forall_mem_cons.mpr ⟨hs, h⟩
  fun_cases push stack s env
  · exact h
  · exact hcons
  · exact hcons

theorem unwindTo_cons (label : Nat) (frame : Frame) (rest : Stack) :
  unwindTo label (frame :: rest) = if frame.catch? = some label then some rest else unwindTo label rest
  := by
  split
  case isTrue h =>
    obtain ⟨_, rfl⟩ := Frame.catch?_eq_some h
    rw [unwindTo, if_pos rfl]
  case isFalse h =>
    rw [unwindTo.eq_def]
    split
    next hcons => cases hcons
    next other env hcons =>
      cases hcons
      rw [if_neg]
      rintro rfl
      exact h rfl
    next hcons =>
      cases hcons
      rfl

theorem push_cons (frame : Frame) (rest : Stack) (s : Stmt) (env : Env) :
  push (frame :: rest) s env =
    if (Frame.stmt s env).catch?.isSome ∧ frame.catch? = (Frame.stmt s env).catch? then frame :: rest
    else .stmt s env :: frame :: rest
  := by
  split
  case isTrue h =>
    obtain ⟨_, hlabel⟩ := Option.isSome_iff_exists.mp h.1
    obtain ⟨_, hs⟩ := Frame.catch?_eq_some hlabel
    obtain ⟨_, rfl⟩ := Frame.catch?_eq_some (h.2.trans hlabel)
    cases hs
    rw [push, if_pos rfl]
  case isFalse h =>
    rw [push.eq_def]
    split
    next label other env' hcons =>
      cases hcons
      rw [if_neg]
      rintro rfl
      exact h ⟨rfl, rfl⟩
    next => rfl

theorem unwindTo_catch (label : Nat) (env : Env) (rest : Stack) :
  unwindTo label (.stmt (.jumpCatch label) env :: rest) = some rest
  := if_pos rfl

theorem unwindTo_suffix {label : Nat} (h : stack.unwindTo label = some below) :
  below <:+ stack
  := by
  fun_induction unwindTo label stack with
  | case1 => cases h
  | case2 =>
    cases h
    exact suffix_cons _ _
  | case3 _ _ _ _ ih | case4 _ _ _ ih =>
    exact (ih h).trans (suffix_cons _ _)

end Stack

theorem Machine.handlerBelow_suffix {caught : Ident} {s : Stmt} {env : Env}
    (h : handlerBelow stack = some (caught, s, env, below)) :
  .handler caught s env :: below <:+ stack
  := by
  fun_induction handlerBelow stack with
  | case1 => cases h
  | case2 =>
    cases h
    exact suffix_refl _
  | case3 s _ _ ih => exact (ih h).trans (suffix_cons _ _)

namespace Next

/-- The frames that come onto the stack. -/
def frames : Next → List Frame
  | rest | jump _ => []
  | enter s env => [.stmt s env]
  | enterAll stmts env => stmts.map (.stmt · env)
  | guarded body caught handler env => [.stmt body env, .handler caught handler env]

theorem forall_onStack (h : ∀ frame ∈ stack, P frame) (hnext : ∀ frame ∈ next.frames, P frame)
    (hon : next.onStack stack = .ok stack') :
  ∀ frame ∈ stack', P frame
  := by
  cases next with
  | rest =>
    cases hon
    exact h
  | enter =>
    cases hon
    exact Stack.forall_push h (hnext _ (mem_singleton_self _))
  | enterAll stmts =>
    cases hon
    induction stmts with
    | nil => exact h
    | cons s _ ih =>
      obtain ⟨hs, hrest⟩ := forall_mem_cons.mp hnext
      exact Stack.forall_push (ih hrest) hs
  | guarded =>
    cases hon
    obtain ⟨hbody, hhandler⟩ := forall_mem_cons.mp hnext
    refine Stack.forall_push (forall_mem_cons.mpr ⟨?_, h⟩) hbody
    exact forall_mem_singleton.mp hhandler
  | jump =>
    rw [onStack] at hon
    split at hon
    case h_2 => cases hon
    case h_1 below hbelow =>
      cases hon
      exact fun frame hframe => h frame ((Stack.unwindTo_suffix hbelow).subset hframe)

theorem onStack_error (h : next.onStack stack = .error f) :
  ∃ label, next = .jump label ∧ f = .jump label ∧ stack.unwindTo label = none
  := by
  cases next with
  | rest | enter | enterAll | guarded => cases h
  | jump label =>
    rw [onStack] at h
    split at h
    case h_1 => cases h
    case h_2 hnone =>
      cases h
      exact ⟨label, rfl, rfl, hnone⟩

end Next

/-! ### Steps -/

namespace Session

/-- The run has executed as many statements as it may. -/
def Limited (σ : Session) : Prop :=
  0 < σ.maxSteps ∧ σ.maxSteps ≤ σ.steps

instance (σ : Session) : Decidable σ.Limited := inferInstanceAs (Decidable (_ ∧ _))

/-- The session in which the first statement of the stack is executed. -/
def popped (σ : Session) (rest : Stack) : Session :=
  { σ with stack := rest, steps := σ.steps + 1 }

/-- The session in which the machine has given up. -/
def exhausted (σ : Session) : Option Outcome × Session :=
  let (value, machine) := (σ.withStack []).faultValue (.stepLimit σ.maxSteps)
  (some (.halt value), { σ with machine })

/-- All that a step can do. -/
inductive Stepped (σ : Session) : Option Outcome × Session → Prop where
  | done (h : σ.stack = []) : Stepped σ (some .done, σ)
  | leave {caught s env rest} (h : σ.stack = .handler caught s env :: rest) :
      Stepped σ (none, σ.withStack rest)
  | limit {s env rest} (h : σ.stack = .stmt s env :: rest) (hlimit : σ.Limited) :
      Stepped σ σ.exhausted
  | proceed {s env rest next σ'} (h : σ.stack = .stmt s env :: rest) (hlimit : ¬ σ.Limited)
      (hrun : (Exec.stmt env s).run (σ.popped rest) = (.ok next, σ')) : Stepped σ (σ'.proceed next)
  | interrupt {s env rest e σ'} (h : σ.stack = .stmt s env :: rest) (hlimit : ¬ σ.Limited)
      (hrun : (Exec.stmt env s).run (σ.popped rest) = (.error e, σ')) :
      Stepped σ (σ'.interrupt (.stmt s env) e)

theorem stepped_step (σ : Session) :
  Stepped σ σ.step
  := by
  rw [step]
  split
  case h_1 h => exact .done h
  case h_2 h => exact .leave h
  case h_3 s env rest h =>
    split
    case isTrue hlimit => exact .limit h hlimit
    case isFalse hlimit =>
      dsimp only
      split
      next hrun => exact .proceed h hlimit hrun
      next hrun => exact .interrupt h hlimit hrun

/-- The next step executes a statement with this result. -/
structure Executes (σ : Session) (s : Stmt) (env : Env) (rest : Stack) (result : Except Interrupt Next)
    (σ' : Session) : Prop where
  stack : σ.stack = .stmt s env :: rest
  unlimited : ¬ σ.Limited
  run : (Exec.stmt env s).run (σ.popped rest) = (result, σ')

section

variable {σ σ' : Session} {s : Stmt} {env : Env} {rest : Stack}

theorem Executes.step_eq {result : Except Interrupt Next} (h : σ.Executes s env rest result σ') :
  σ.step = match result with
    | .ok next => σ'.proceed next
    | .error e => σ'.interrupt (.stmt s env) e
  := by
  obtain ⟨hstack, hlimit, hrun⟩ := h
  obtain ⟨m, w⟩ := σ
  have hlimit : ¬ (0 < m.maxSteps ∧ m.maxSteps ≤ m.steps) := hlimit
  simp only [Session.popped] at hrun hstack
  simp only [step, hstack, if_neg hlimit, hrun]
  cases result <;> rfl

theorem Executes.step_ok (h : σ.Executes s env rest (.ok next) σ') :
  σ.step = σ'.proceed next
  := h.step_eq

theorem Executes.step_error {e : Interrupt} (h : σ.Executes s env rest (.error e) σ') :
  σ.step = σ'.interrupt (.stmt s env) e
  := h.step_eq

theorem step_leave {name : Ident} (h : σ.stack = .handler name s env :: rest) :
  σ.step = (none, σ.withStack rest)
  := by
  obtain ⟨m, w⟩ := σ
  simp only at h
  simp only [step, h, withStack]

theorem step_done (h : σ.stack = []) :
  σ.step = (some .done, σ)
  := by
  obtain ⟨m, w⟩ := σ
  simp only at h
  simp only [step, h]

theorem step_limit (h : σ.stack = .stmt s env :: rest) (hlimit : σ.Limited) :
  σ.step = σ.exhausted
  := by
  obtain ⟨m, w⟩ := σ
  have hlimit : 0 < m.maxSteps ∧ m.maxSteps ≤ m.steps := hlimit
  simp only at h
  simp only [step, h, if_pos hlimit]
  rfl

end

def fault? (σ : Session) : Option Fault :=
  match σ.stack with
  | .stmt s env :: rest =>
    if σ.Limited then some (.stepLimit σ.maxSteps)
    else match (Exec.stmt env s).run (σ.popped rest) with
      | (.ok next, σ') => match next.onStack σ'.stack with
        | .ok _ => none
        | .error f => some f
      | (.error (.fault f), _) => some f
      | (.error _, _) => none
  | _ => none

theorem fault?_eq_some {σ : Session} (h : σ.fault? = some f) :
  f = .stepLimit σ.maxSteps ∨
  ∃ s env rest σ', σ.stack = .stmt s env :: rest ∧
    ((∃ next, (Exec.stmt env s).run (σ.popped rest) = (.ok next, σ') ∧
        next.onStack σ'.stack = .error f) ∨
      (Exec.stmt env s).run (σ.popped rest) = (.error (.fault f), σ'))
  := by
  rw [fault?] at h
  split at h
  case h_2 => cases h
  case h_1 s env rest hstack =>
    split at h
    case isTrue =>
      cases h
      exact .inl rfl
    case isFalse =>
      refine .inr ⟨s, env, rest, ?_⟩
      split at h
      next next σ' hrun =>
        split at h
        next => cases h
        next hon =>
          cases h
          exact ⟨σ', hstack, .inl ⟨next, hrun, hon⟩⟩
      next σ' hrun =>
        cases h
        exact ⟨σ', hstack, .inr hrun⟩
      next => cases h

end Session

/-! ### Throwing -/

namespace Machine

variable {m : Machine} {value : Value}

theorem unwind_of_handlerBelow {caught : Ident} {s : Stmt} {env : Env}
    (h : handlerBelow m.stack = some (caught, s, env, below)) :
  m.unwind value = (none, { m with
    store := (m.store.newBound value).2
    stack := below.push s (env.extend [(caught, (m.store.newBound value).1)]) })
  := by
  simp only [unwind, h]
  rfl

theorem unwind_of_handlerBelow_none (h : handlerBelow m.stack = none) :
  m.unwind value = (some (.halt value), { m with stack := [] })
  := by
  simp only [unwind, h]

theorem forall_unwind (h : ∀ frame ∈ m.stack, P frame) (hcaught : ∀ caught s env v, P (.handler caught s env) →
      P (.stmt s (env.extend [(caught, v)]))) :
  ∀ frame ∈ (m.unwind value).2.stack, P frame
  := by
  cases hbelow : handlerBelow m.stack with
  | none =>
    rw [unwind_of_handlerBelow_none hbelow]
    exact forall_mem_nil _
  | some found =>
    obtain ⟨caught, s, env, below⟩ := found
    rw [unwind_of_handlerBelow hbelow]
    have hframes : ∀ frame ∈ Frame.handler caught s env :: below, P frame :=
      fun frame hframe => h frame ((handlerBelow_suffix hbelow).subset hframe)
    obtain ⟨hhandler, hbelow⟩ := forall_mem_cons.mp hframes
    exact Stack.forall_push hbelow (hcaught _ _ _ _ hhandler)

theorem unwind_eq_some {outcome : Outcome} (h : (m.unwind value).1 = some outcome) :
  (m.unwind value).2.stack = [] ∧ ∀ v, outcome ≠ .suspend v
  := by
  cases hbelow : handlerBelow m.stack with
  | none =>
    rw [unwind_of_handlerBelow_none hbelow] at h ⊢
    cases h
    exact ⟨rfl, nofun⟩
  | some =>
    rw [unwind_of_handlerBelow hbelow] at h
    cases h

end Machine

namespace Session

variable {σ τ : Session}

/-- A machine that stops has nothing left to do, or a statement has to wait. -/
theorem step_eq_some {outcome : Outcome} (h : σ.step = (some outcome, τ)) :
  (τ.stack = [] ∧ ∀ v, outcome ≠ .suspend v) ∨
  ∃ s env rest x σ', σ.Executes s env rest (.error (.suspend x)) σ' ∧
    outcome = .suspend (σ'.store.root x) ∧ τ = σ'.withStack (.stmt s env :: σ'.stack)
  := by
  have hraise {σ : Session} {f : Fault} (h : σ.raise f = (some outcome, τ)) :
      τ.stack = [] ∧ ∀ v, outcome ≠ .suspend v := by
    obtain rfl := congrArg Prod.snd h
    exact @Machine.unwind_eq_some (σ.faultValue f).2 (σ.faultValue f).1 _ (congrArg Prod.fst h)
  have hstepped := σ.stepped_step
  generalize hr : σ.step = r at hstepped
  cases hstepped with
  | done hstack =>
    cases hr.symm.trans h
    exact .inl ⟨hstack, nofun⟩
  | leave => cases hr.symm.trans h
  | limit =>
    cases hr.symm.trans h
    exact .inl ⟨rfl, nofun⟩
  | @proceed _ _ _ next =>
    rw [h, proceed] at hr
    split at hr
    next => cases hr
    next => exact .inl (hraise hr.symm)
  | @interrupt s env rest e σ' hstack hlimit hrun =>
    cases e with
    | suspend x =>
      cases hr.symm.trans h
      exact .inr ⟨s, env, rest, x, σ', ⟨hstack, hlimit, hrun⟩, rfl, rfl⟩
    | throw =>
      have hunwind := hr.symm.trans h
      obtain rfl := congrArg Prod.snd hunwind
      exact .inl (Machine.unwind_eq_some (congrArg Prod.fst hunwind))
    | fault => exact .inl (hraise (hr.symm.trans h))

/-- What is read from neither the store nor the stack changes only where a statement is executed. -/
theorem read_step {β : Type} (read : Session → β)
    (hread : ∀ σ store stack, read { σ with store, stack } = read σ) (σ : Session) :
  read σ.step.2 = read σ ∨ ∃ s env rest, read σ.step.2 = read ((Exec.stmt env s).run (σ.popped rest)).2
  := by
  have hunwind (σ : Session) (value : Value) :
      read { σ with machine := (σ.unwind value).2 } = read σ := by
    cases hbelow : Machine.handlerBelow σ.stack with
    | none =>
      rw [Machine.unwind_of_handlerBelow_none hbelow]
      exact hread σ σ.store []
    | some =>
      rw [Machine.unwind_of_handlerBelow hbelow]
      apply hread
  have hraise (σ : Session) (f : Fault) : read (σ.raise f).2 = read σ :=
    (hunwind { σ with machine := (σ.faultValue f).2 } (σ.faultValue f).1).trans
      (hread σ _ σ.stack)
  have hstepped := σ.stepped_step
  generalize σ.step = stepped at hstepped
  cases hstepped with
  | done => exact .inl rfl
  | leave => exact .inl (hread σ σ.store _)
  | limit => exact .inl (hread σ _ [])
  | @proceed s env rest _ σ' _ _ hrun =>
    refine .inr ⟨s, env, rest, ?_⟩
    rw [hrun, proceed]
    split
    · exact hread σ' σ'.store _
    · exact (hraise _ _).trans (hread σ' σ'.store [])
  | @interrupt s env rest e σ' _ _ hrun =>
    refine .inr ⟨s, env, rest, ?_⟩
    rw [hrun]
    cases e with
    | suspend => exact hread σ' σ'.store _
    | throw value => exact hunwind σ' value
    | fault f => exact hraise σ' f

end Session

section Tame

variable {U V W : View} {C : Definition → Prop} {value v : Value}

theorem Record.in_error (name message : String) :
  ∀ field ∈ (Record.error name message).fields, field.2.In V
  := by
  simp [Record.error, Leaf.In, Leaf.lit, Scalar.In]

namespace Machine

variable {m : Machine}

theorem Tame.withStack (h : m.Tame V C) (stack : Stack) :
  { m with stack }.Tame V C
  := ⟨h.store, h.pending, h.spawns⟩

theorem Tame.withStore (h : m.Tame V C) {store : Store} (hstore : store.Tame W C) (hle : V ≤ W) :
  { m with store }.Tame W C
  := ⟨hstore, fun b hb => hle.vars _ (h.pending b hb), h.spawns⟩

theorem Tame.faultValue (h : m.Tame V C) (f : Fault) :
  (m.faultValue f).2.Tame V C ∧ Store.Grown V V m.store (m.faultValue f).2.store ∧ (m.faultValue f).1.In V
  := by
  obtain ⟨htame, hgrown⟩ := h.store.newRecord (Record.in_error f.name f.message)
  exact ⟨h.withStore htame hgrown.le, hgrown, trivial⟩

theorem Tame.caught (h : m.Tame V C) (hvalue : value.In V) {caught : Ident}
    {s : Stmt} {env : Env} (hbelow : handlerBelow m.stack = some (caught, s, env, below)) :
  ∃ W v, (m.unwind value).2.Tame W C ∧ Store.Grown V W m.store (m.unwind value).2.store ∧
    W.vars v ∧ (m.unwind value).1 = none ∧
    (m.unwind value).2.stack = below.push s (env.extend [(caught, v)])
  := by
  rw [unwind_of_handlerBelow hbelow]
  obtain ⟨W, htame, hgrown, hv⟩ := h.store.newBound hvalue
  exact ⟨W, _, (h.withStack _).withStore htame hgrown.le, hgrown, hv, rfl, rfl⟩

theorem Tame.unwind (h : m.Tame V C) (hvalue : value.In V) :
  ∃ W, (m.unwind value).2.Tame W C ∧ Store.Grown V W m.store (m.unwind value).2.store
  := by
  cases hbelow : handlerBelow m.stack with
  | none =>
    rw [unwind_of_handlerBelow_none hbelow]
    exact ⟨V, h.withStack [], .refl V _⟩
  | some =>
    obtain ⟨W, v, htame, hgrown, -⟩ := h.caught hvalue hbelow
    exact ⟨W, htame, hgrown⟩

end Machine

namespace Session

variable {σ : Session}

theorem Tame.popped (h : σ.Tame V C) (rest : Stack) :
  (σ.popped rest).Tame V C
  := ⟨⟨h.machine.store, h.machine.pending, h.machine.spawns⟩, h.world⟩

theorem Tame.exhausted (h : σ.Tame V C) :
  σ.exhausted.2.Tame V C ∧ Store.Grown V V σ.store σ.exhausted.2.store
  := by
  obtain ⟨htame, hgrown, -⟩ := (h.machine.withStack []).faultValue (.stepLimit σ.maxSteps)
  exact ⟨⟨htame, h.world⟩, hgrown⟩

end Session

/-! ### What hosts do -/

namespace Machine

variable {m m' m'' : Machine}

/-- The machine has received something from its host: what was out of view is as it was, and nothing
has come onto the stack but the throw of a failure. -/
structure Received (V W : View) (C : Definition → Prop) (m m' : Machine) : Prop where
  tame : m'.Tame W C
  grown : Store.Grown V W m.store m'.store
  stack : m'.stack = m.stack ∨ ∃ v, W.vars v ∧ m'.stack = m.stack.push (.throw (.ident "$failure")) [("$failure", v)]

theorem Tame.throwLater (h : m.Tame V C) (f : Fault) :
  ∃ W, Received V W C m (m.throwLater f)
  := by
  obtain ⟨hrecord, hgrown⟩ := h.store.newRecord (Record.in_error f.name f.message)
  obtain ⟨W, hbound, hgrown', hv⟩ := hrecord.newBound (v := .record _) trivial
  exact ⟨W, (h.withStack _).withStore hbound hgrown'.le, hgrown.trans hgrown', .inr ⟨_, hv, rfl⟩⟩

theorem Received.trans (h : Received V W C m' m'')
    (hgrown : Store.Grown U V m.store m'.store) (hstack : m'.stack = m.stack) :
  Received U W C m m''
  := ⟨h.tame, hgrown.trans h.grown, hstack ▸ h.stack⟩

/-- The machine with the value of a response in its store. -/
def taking (m : Machine) (id : Nat) (store : Store) : Machine :=
  { m with pending := m.pending.filter (·.1 != id), store }

/-- A response comes too late, or it is put into the store and bound to the variable that waits for it; a failure is
to be thrown. -/
theorem respond_cases (m : Machine) (id : Nat) (p : Portable) :
  m.pending.lookup id = none ∧ m.respond id p = m ∨ ∃ v store, (id, v) ∈ m.pending ∧
      (store = (m.store.importValue p).2 ∨ ∃ value, (m.store.importValue p).1 = .ok value ∧
        store = ((m.store.importValue p).2.unify (.var v) value).2) ∧
      (m.respond id p = m.taking id store ∨ ∃ f, m.respond id p = (m.taking id store).throwLater f)
  := by
  rw [respond]
  split
  next hnone => exact .inl ⟨hnone, rfl⟩
  next v hv =>
    obtain ⟨_, _, hpending, -⟩ := lookup_eq_some_iff.mp hv
    have hmem : (id, v) ∈ m.pending := by simp [hpending]
    dsimp only
    split
    next e _ hrun =>
      cases congrArg Prod.snd hrun
      exact .inr ⟨v, _, hmem, .inl rfl, .inr ⟨_, rfl⟩⟩
    next value _ hrun =>
      cases congrArg Prod.snd hrun
      refine .inr ⟨v, _, hmem, .inr ⟨value, congrArg Prod.fst hrun, rfl⟩, ?_⟩
      split
      next _ hunify =>
        cases congrArg Prod.snd hunify
        exact .inl rfl
      next e _ hunify =>
        cases congrArg Prod.snd hunify
        exact .inr ⟨_, rfl⟩

theorem Tame.respond (h : m.Tame V C) (id : Nat) {p : Portable} (hp : p.Tame C) :
  ∃ W, Received V W C m (m.respond id p)
  := by
  rcases m.respond_cases id p with ⟨-, heq⟩ | ⟨v, store, hv, hstore, heq⟩
  · rw [heq]
    exact ⟨V, h, .refl V _, .inl rfl⟩
  · obtain ⟨W, himport, hgrown, hvalue⟩ := h.store.importValue hp
    obtain ⟨htame, hgrown⟩ : store.Tame W C ∧ Store.Grown V W m.store store := by
      rcases hstore with rfl | ⟨value, hok, rfl⟩
      · exact ⟨himport, hgrown⟩
      · have hvar : (Value.var v).In W := hgrown.le.vars _ (h.pending (id, v) hv)
        obtain ⟨hunify, hgrown'⟩ := himport.unify hvar (hvalue value hok)
        exact ⟨hunify, hgrown.trans hgrown'⟩
    have hm : (m.taking id store).Tame W C :=
      ⟨htame, fun b hb => hgrown.le.vars _ (h.pending b (mem_of_mem_filter hb)), h.spawns⟩
    rcases heq with heq | ⟨f, heq⟩
    · rw [heq]
      exact ⟨W, hm, hgrown, .inl rfl⟩
    · rw [heq]
      obtain ⟨W', hreceived⟩ := hm.throwLater f
      exact ⟨W', hreceived.trans hgrown rfl⟩

/-! ### New machines -/

/-- The machine is tame, and the environment of programs is in view. -/
structure Ready (V : View) (C : Definition → Prop) (m : Machine) : Prop where
  tame : m.Tame V C
  root : ∀ b ∈ m.root, V.vars b.2

theorem Ready.define (h : m.Ready V C) (name : Ident) (hv : v.In V) :
  ∃ W, (m.define name v).Ready W C ∧ Store.Grown V W m.store (m.define name v).store
  := by
  obtain ⟨W, htame, hgrown, hnew⟩ := h.tame.store.newBound hv
  refine ⟨W, ⟨⟨htame, ?_, h.tame.spawns⟩, ?_⟩, hgrown⟩
  · exact fun b hb => hgrown.le.vars _ (h.tame.pending b hb)
  · exact forall_mem_cons.mpr ⟨hnew, fun b hb => hgrown.le.vars _ (h.root b hb)⟩

/-- A new machine comes of an empty one by giving names to builtins, and to records of builtins. -/
theorem create_induction {P : Machine → Prop} {maxSteps : Nat} {self : Option ActorId} (empty : P { maxSteps, self })
    (record : ∀ m name (r : Record), (∀ f ∈ r.fields, ∃ owner b, f.2 = .scalar (.proc (.builtin owner b))) →
      P m → P ((m.onStore (·.newRecord r)).2.define name (.record m.store.records.size)))
    (builtin : ∀ m name owner b, P m → P (m.define name (.scalar (.proc (.builtin owner b))))) :
  P (create maxSteps self)
  := by
  have hmodule (m : Machine) (module : String × List (String × Builtin)) (hm : P m) :
      P (defineModule (self.getD 0) m module) := by
    refine record m _ _ (Record.forall_assign (P := fun l => ∃ owner b, l = .scalar (.proc (.builtin owner b)))
      (r := ⟨_, []⟩) (forall_mem_nil _) ?_) hm
    exact forall_mem_map.mpr fun b _ => ⟨_, _, rfl⟩
  have hmodules := foldlRecOn Builtin.modules _ empty fun m hm module _ => hmodule m module hm
  exact foldlRecOn Builtin.procedures _ hmodules fun m hm b _ => builtin m b.1 _ b.2 hm

theorem ready_create (hC : C (Closure.definition {})) (V : View) (maxSteps : Nat) (self : Option ActorId) :
  ∃ W, (create maxSteps self).Ready W C ∧ Store.Grown V W {} (create maxSteps self).store
  := by
  refine create_induction (P := fun m => ∃ W, m.Ready W C ∧ Store.Grown V W {} m.store) ?_ ?_ ?_
  · exact ⟨V, ⟨⟨.empty hC V, forall_mem_nil _, forall_mem_nil _⟩, forall_mem_nil _⟩, .refl V _⟩
  · rintro m name r hr ⟨W, hm, hgrown⟩
    have hfields : ∀ f ∈ r.fields, f.2.In W := by
      intro f hf
      obtain ⟨_, _, hleaf⟩ := hr f hf
      rw [hleaf]
      trivial
    obtain ⟨htame, hgrown₁⟩ := hm.tame.store.newRecord hfields
    have hrecord : Ready W C (m.onStore (·.newRecord r)).2 := ⟨hm.tame.withStore htame hgrown₁.le, hm.root⟩
    obtain ⟨W', hready, hgrown₂⟩ := hrecord.define name (v := .record _) trivial
    exact ⟨W', hready, hgrown.trans (hgrown₁.trans hgrown₂)⟩
  · rintro m name owner b ⟨W, hm, hgrown⟩
    obtain ⟨W', hready, hgrown'⟩ := hm.define name (v := .scalar (.proc (.builtin owner b))) trivial
    exact ⟨W', hready, hgrown.trans hgrown'⟩

end Machine

end Tame

end ActorLang
