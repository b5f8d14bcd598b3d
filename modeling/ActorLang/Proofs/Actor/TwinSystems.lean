import ActorLang.Actor.System
import ActorLang.Proofs.Actor.Deeds
import ActorLang.Proofs.Machine.Twins

/-!
# Systems that differ in a name

The actor of a program has a twin, whose machine executes twins of the same statements.  Both send
the same envelopes, start the same actors and wait at the same time.
-/

namespace ActorLang

/-! ### Machines and their hosts -/

namespace MachineTwin

variable {m m' : Machine}

section

variable (h : MachineTwin m m')

include h

theorem push (s : Kernel.Stmt) (env : Env) :
  MachineTwin (m.push s env) (m'.push s env)
  := by
  cases h with
  | withStack hstack => exact .withStack (m.push s env) ((FrameTwin.refl _).push hstack)

theorem onStore {α : Type} (f : Store → α × Store) :
  ∃ x m₁ m₁', m.onStore f = (x, m₁) ∧ m'.onStore f = (x, m₁') ∧ MachineTwin m₁ m₁'
  := by
  cases h with
  | withStack hstack => exact ⟨_, _, _, rfl, rfl, .withStack (m.onStore f).2 hstack⟩

theorem throwLater (f : Fault) :
  MachineTwin (m.throwLater f) (m'.throwLater f)
  := by
  obtain ⟨id, _, _, hrecord, hrecord', h₁⟩ := h.onStore (·.newRecord f.record)
  obtain ⟨v, _, _, hbound, hbound', h₂⟩ := h₁.onStore (·.newBound (.record id))
  simp only [Machine.throwLater, hrecord, hrecord', hbound, hbound']
  exact h₂.push _ _

theorem pending :
  m'.pending = m.pending
  := by
  cases h
  rfl

theorem respond (id : Nat) (response : Portable) :
  MachineTwin (m.respond id response) (m'.respond id response)
  := by
  rw [Machine.respond, Machine.respond, h.pending]
  split
  · exact h
  next v _ =>
    have hforget : MachineTwin { m with pending := m.pending.filter (·.1 != id) }
        { m' with pending := m.pending.filter (·.1 != id) } := by
      cases h with
      | withStack hstack => exact .withStack { m with pending := m.pending.filter (·.1 != id) } hstack
    obtain ⟨value, _, _, himport, himport', h₁⟩ := hforget.onStore (·.importValue response)
    simp only [himport, himport']
    cases value with
    | error => exact h₁.throwLater _
    | ok value =>
      obtain ⟨done, _, _, hunify, hunify', h₂⟩ := h₁.onStore (·.unify (.var v) value)
      simp only [hunify, hunify']
      cases done with
      | error => exact h₂.throwLater _
      | ok => exact h₂

end

end MachineTwin

/-! ### Actors -/

/-- The actors are the same, or run programs on machines that are twins. -/
inductive ActorTwin : Actor → Actor → Prop where
  | refl (a : Actor) : ActorTwin a a
  | program (a : Actor) {m'} (hphase : a.phase.OfProgram) (h : MachineTwin a.machine m') :
      ActorTwin a { a with machine := m' }

structure MoveTwin {β : Type} (r r' : Actor × World × β) : Prop where
  actor : ActorTwin r.1 r'.1
  events : r'.2 = r.2

namespace ActorTwin

variable {a a' : Actor}

theorem phase (h : ActorTwin a a') :
  a'.phase = a.phase
  := by
  cases h <;> rfl

theorem evaluation (h : ActorTwin a a') (result : VarId) (outcome : Outcome) :
  a'.evaluation result outcome = a.evaluation result outcome
  := by
  cases h with
  | refl => rfl
  | program _ hm => exact hm.evaluation result outcome

section Program

variable {id : ActorId} {m m' : Machine} {handlers : Handlers} {deferred : List Envelope}

theorem endTask (h : MachineTwin m m') (phase : Phase) (w : World) (e : TurnEnd) :
  MoveTwin (Actor.endTask ⟨m, id, phase, handlers, deferred⟩ w .program e)
    (Actor.endTask ⟨m', id, phase, handlers, deferred⟩ w .program e)
  := ⟨.program _ (.inr (.inr ⟨e, rfl⟩)) h, rfl⟩

theorem rest (h : MachineTwin m m') (phase : Phase) (w : World) (outcome : Outcome) :
  MoveTwin (Actor.rest ⟨m, id, phase, handlers, deferred⟩ w .program outcome)
    (Actor.rest ⟨m', id, phase, handlers, deferred⟩ w .program outcome)
  := by
  have hpending : m'.hasPending = m.hasPending := by
    rw [Machine.hasPending, Machine.hasPending, h.pending]
  have hwaits (e : TurnEnd) :
      MoveTwin (if m.hasPending then (⟨m, id, .waiting .program, handlers, deferred⟩, w, {})
          else Actor.endTask ⟨m, id, phase, handlers, deferred⟩ w .program e)
        (if m'.hasPending then (⟨m', id, .waiting .program, handlers, deferred⟩, w, {})
          else Actor.endTask ⟨m', id, phase, handlers, deferred⟩ w .program e) := by
    rw [hpending]
    split
    · exact ⟨.program _ (.inr (.inl rfl)) h, rfl⟩
    · exact endTask h phase w e
  cases outcome with
  | halt v => exact endTask h phase w (.halted v)
  | done => exact hwaits .done
  | suspend => exact hwaits .suspended

theorem stepTask (h : MachineTwin m m') (w : World) :
  MoveTwin (Actor.stepTask ⟨m, id, .running .program, handlers, deferred⟩ w .program)
    (Actor.stepTask ⟨m', id, .running .program, handlers, deferred⟩ w .program)
  := by
  rw [Actor.stepTask, Actor.stepTask]
  have hstep := (h.session w).step
  generalize Session.step ⟨m, w⟩ = r at hstep ⊢
  generalize Session.step ⟨m', w⟩ = r' at hstep ⊢
  obtain ⟨outcome, σ⟩ := r
  obtain ⟨_, _⟩ := r'
  obtain ⟨houtcome, hσ⟩ := hstep
  cases houtcome
  cases hσ with
  | withStack hstack =>
    cases outcome with
    | none => exact ⟨.program _ (.inl rfl) (.withStack _ hstack), rfl⟩
    | some outcome =>
      have hm : MachineTwin { σ.machine with spawns := [] } _ :=
        .withStack { σ.machine with spawns := [] } hstack
      have hrest : MoveTwin (Actor.rest ⟨_, id, _, handlers, deferred⟩ σ.world .program outcome) _ :=
        rest hm (.running .program) σ.world outcome
      exact ⟨hrest.actor, congrArg (fun p => (p.1, { p.2 with spawns := σ.spawns })) hrest.events⟩

theorem await (h : MachineTwin m m') (w : World) (e : Envelope) :
  MoveTwin (Actor.await ⟨m, id, .waiting .program, handlers, deferred⟩ w .program e)
    (Actor.await ⟨m', id, .waiting .program, handlers, deferred⟩ w .program e)
  := by
  rw [Actor.await, Actor.await]
  split
  · exact ⟨.program _ (.inr (.inr ⟨_, rfl⟩)) h, rfl⟩
  next p request _ _ _ => exact ⟨.program _ (.inl rfl) (h.respond request p).restart, rfl⟩
  · exact ⟨.program _ (.inr (.inl rfl)) h, rfl⟩

end Program

theorem step (h : ActorTwin a a') (w : World) :
  MoveTwin (a.step w) (a'.step w)
  := by
  cases h with
  | refl => exact ⟨.refl _, rfl⟩
  | program hphase hm =>
    obtain ⟨m, id, _, handlers, deferred⟩ := a
    rcases hphase with rfl | rfl | ⟨e, rfl⟩
    · have htask : MoveTwin (Actor.stepTask ⟨m, id, _, handlers, deferred⟩ w .program) _ := stepTask hm w
      exact ⟨htask.actor, congrArg (fun p => (p.1, some p.2)) htask.events⟩
    · simp only [Actor.step, Actor.receive]
      cases w.receive? id with
      | none => exact ⟨.program _ (.inr (.inl rfl)) hm, rfl⟩
      | some taken =>
        obtain ⟨e, w₁⟩ := taken
        have hawait : MoveTwin (Actor.await ⟨m, id, _, handlers, deferred⟩ w₁ .program e) _ :=
          await hm w₁ e
        exact ⟨hawait.actor, congrArg (fun p => (p.1, some p.2)) hawait.events⟩
    · exact ⟨.program _ (.inr (.inr ⟨e, rfl⟩)) hm, rfl⟩

end ActorTwin

/-! ### Systems -/

structure ActorsTwin (actors actors' : Array Actor) : Prop where
  size : actors'.size = actors.size
  place : ∀ i : Nat, Option.Rel ActorTwin actors[i]? actors'[i]?

namespace ActorsTwin

variable {actors actors' : Array Actor} {a a' : Actor}

theorem refl (actors : Array Actor) :
  ActorsTwin actors actors
  := by
  refine ⟨rfl, fun i => ?_⟩
  cases actors[i]? with
  | none => exact .none
  | some a => exact .some (.refl a)

theorem set (h : ActorsTwin actors actors') (i : Nat) (ha : ActorTwin a a') :
  ActorsTwin (actors.setIfInBounds i a) (actors'.setIfInBounds i a')
  := by
  refine ⟨by simpa using h.size, fun j => ?_⟩
  rw [Array.getElem?_setIfInBounds, Array.getElem?_setIfInBounds, h.size]
  split
  · split
    · exact .some ha
    · exact .none
  · exact h.place j

theorem push (h : ActorsTwin actors actors') (ha : ActorTwin a a') :
  ActorsTwin (actors.push a) (actors'.push a')
  := by
  refine ⟨by simpa using h.size, fun j => ?_⟩
  rw [Array.getElem?_push, Array.getElem?_push, h.size]
  split
  · exact .some ha
  · exact h.place j

theorem phases (h : ActorsTwin actors actors') :
  actors'.toList.map (·.phase) = actors.toList.map (·.phase)
  := by
  apply List.ext_getElem?
  intro i
  have hplace := h.place i
  simp only [List.getElem?_map, Array.getElem?_toList]
  generalize actors[i]? = found at hplace ⊢
  generalize actors'[i]? = found' at hplace ⊢
  cases hplace with
  | none => rfl
  | some ha => exact congrArg some ha.phase

end ActorsTwin

/-- The second of two systems is the first with twins of its actors. -/
inductive SystemTwin : System → System → Prop where
  | withActors (sys : System) {actors} (h : ActorsTwin sys.actors actors) :
      SystemTwin sys { sys with actors }

namespace SystemTwin

variable {sys sys' : System}

section

variable (h : SystemTwin sys sys')

include h

theorem startActor (s : Spawn) :
  SystemTwin (sys.startActor s) (sys'.startActor s)
  := by
  cases h with
  | withActors h =>
    simp only [System.startActor]
    split
    · exact .withActors { sys with unstopped := _, actors := _ } (h.push (.refl _))
    · exact .withActors { sys with unstopped := _, actors := _, world := _, halts := _ } (h.push (.refl _))

theorem record (e : Events) :
  SystemTwin (sys.record e) (sys'.record e)
  := by
  have hfold (spawns : List Spawn) {sys sys' : System} (h : SystemTwin sys sys') :
      SystemTwin (spawns.foldl System.startActor sys) (spawns.foldl System.startActor sys') := by
    induction spawns generalizing sys sys' with
    | nil => exact h
    | cons s _ ih => exact ih (h.startActor s)
  cases h with
  | withActors h => exact hfold e.spawns (.withActors { sys with halts := sys.halts ++ e.halts } h)

theorem poll {a a' : Actor} (ha : ActorTwin a a') (index fuel : Nat) (moved : Bool) :
  (System.poll index fuel moved a' sys').1 = (System.poll index fuel moved a sys).1 ∧
    SystemTwin (System.poll index fuel moved a sys).2 (System.poll index fuel moved a' sys').2
  := by
  induction fuel generalizing moved a a' sys sys' with
  | zero =>
    cases h with
    | withActors h => exact ⟨rfl, .withActors { sys with actors := _ } (h.set index ha)⟩
  | succ _ ih =>
    rw [System.poll, System.poll]
    cases h with
    | withActors h =>
      have hstep := ha.step sys.world
      generalize a.step sys.world = r at hstep ⊢
      generalize a'.step sys.world = r' at hstep ⊢
      obtain ⟨_, w, events⟩ := r
      obtain ⟨_, _, _⟩ := r'
      obtain ⟨ha₁, hevents⟩ := hstep
      cases hevents
      cases events with
      | none => exact ⟨rfl, .withActors { sys with actors := _, world := w } (h.set index ha₁)⟩
      | some events => exact ih (.record (.withActors { sys with world := w } h) events) ha₁ true

theorem pollAt (fuel index : Nat) :
  (sys'.pollAt fuel index).1 = (sys.pollAt fuel index).1 ∧
    SystemTwin (sys.pollAt fuel index).2 (sys'.pollAt fuel index).2
  := by
  cases h with
  | @withActors actors h =>
    rw [System.pollAt, System.pollAt]
    have hplace := h.place index
    generalize sys.actors[index]? = found at hplace ⊢
    generalize actors[index]? = found' at hplace ⊢
    cases hplace with
    | none => exact ⟨rfl, .withActors sys h⟩
    | some ha =>
      exact poll (.withActors { sys with actors := _ } (h.set index (.refl default))) ha index fuel false

theorem round (fuel : Nat) :
  (sys'.round fuel).1 = (sys.round fuel).1 ∧ SystemTwin (sys.round fuel).2 (sys'.round fuel).2
  := by
  have hfold (indices : List Nat) (moved : Bool) {sys sys' : System} (h : SystemTwin sys sys') :
      let visit (x : Bool × System) (index : Nat) : Bool × System :=
        (x.1 || (x.2.pollAt fuel index).1, (x.2.pollAt fuel index).2)
      (indices.foldl visit (moved, sys')).1 = (indices.foldl visit (moved, sys)).1 ∧
        SystemTwin (indices.foldl visit (moved, sys)).2 (indices.foldl visit (moved, sys')).2 := by
    induction indices generalizing moved sys sys' with
    | nil => exact ⟨rfl, h⟩
    | cons index _ ih =>
      obtain ⟨hmoved, hpolled⟩ := h.pollAt fuel index
      simp only [List.foldl_cons, hmoved]
      exact ih _ hpolled
  have hsize : sys'.actors.size = sys.actors.size := by
    cases h with
    | withActors h => exact h.size
  rw [System.round, hsize]
  exact hfold _ false h

theorem programEnd? :
  sys'.programEnd? = sys.programEnd?
  := by
  cases h with
  | @withActors actors h =>
    rw [System.programEnd?, System.programEnd?]
    have hplace := h.place 0
    generalize sys.actors[0]? = found at hplace ⊢
    generalize actors[0]? = found' at hplace ⊢
    cases hplace with
    | none => rfl
    | some ha => simp only [ha.phase]

theorem allStopped :
  sys'.allStopped = sys.allStopped
  := by
  cases h with
  | @withActors actors h =>
    have hphases (actors : Array Actor) : ((actors.toList.drop 1).all fun a => a.phase = .stopped) =
        ((actors.toList.map (·.phase)).drop 1).all (· = .stopped) := by
      rw [← List.map_drop, List.all_map]
      rfl
    rw [System.allStopped, System.allStopped, hphases, hphases, h.phases]

theorem run (rounds fuel : Nat) :
  Option.Rel SystemTwin (sys.run rounds fuel) (sys'.run rounds fuel)
  := by
  induction rounds generalizing sys sys' with
  | zero => exact .none
  | succ _ ih =>
    rw [System.run, System.run]
    have hround := h.round fuel
    generalize sys.round fuel = r at hround ⊢
    generalize sys'.round fuel = r' at hround ⊢
    obtain ⟨moved, sys₁⟩ := r
    obtain ⟨_, sys₁'⟩ := r'
    obtain ⟨hmoved, h₁⟩ := hround
    cases hmoved
    cases moved with
    | true => exact ih h₁
    | false =>
      have hunstopped : sys₁'.unstopped = sys₁.unstopped := by
        cases h₁
        rfl
      have htold : SystemTwin sys₁.tellStop sys₁'.tellStop := by
        cases h₁ with
        | withActors h => exact .withActors sys₁.tellStop h
      simp only [h₁.programEnd?, hunstopped, h₁.allStopped]
      split
      · exact .none
      · split
        · exact ih htold
        · split
          · exact .some h₁
          · exact .none

theorem evaluation? (result : VarId) :
  sys'.evaluation? result = sys.evaluation? result
  := by
  rw [System.evaluation?, System.evaluation?, h.programEnd?]
  cases h with
  | @withActors actors h =>
    have hplace := h.place 0
    generalize sys.actors[0]? = found at hplace ⊢
    generalize actors[0]? = found' at hplace ⊢
    cases hplace with
    | none => rfl
    | some ha => simp only [Option.bind_eq_bind, Option.bind_some, ha.evaluation]

theorem report (rounds fuel : Nat) (result : VarId) :
  (sys.run rounds fuel).bind (·.evaluation? result) = (sys'.run rounds fuel).bind (·.evaluation? result)
  := by
  have hrun := h.run rounds fuel
  generalize sys.run rounds fuel = ended at hrun ⊢
  generalize sys'.run rounds fuel = ended' at hrun ⊢
  cases hrun with
  | none => rfl
  | some h => exact (h.evaluation? result).symm

end

end SystemTwin

section Declaring

variable {N : Pairing} {x y : Kernel.Ident} {body body' : Kernel.Stmt}

section

variable (h : Twin N body body') (hfits : ∀ (env : Env) v, N.Fits (env.extend [(x, v)]) (env.extend [(y, v)]))

include h hfits

theorem Twin.ofProgram (maxSteps : Nat) :
  (System.ofProgram (.scope [x] body) maxSteps).1 = (System.ofProgram (.scope [y] body') maxSteps).1 ∧
    SystemTwin (System.ofProgram (.scope [x] body) maxSteps).2 (System.ofProgram (.scope [y] body') maxSteps).2
  := by
  obtain ⟨hresult, hm⟩ := h.load hfits (Machine.create maxSteps (some ({} : World).newMailbox.1))
  have hactor := ActorTwin.program (.program ({} : World).newMailbox.1 _) (.inl rfl) hm.restart
  exact ⟨hresult, .withActors (System.ofProgram (.scope [x] body) maxSteps).2 ((ActorsTwin.refl #[]).push hactor)⟩

/-- Programs that declare one variable under two names have the same report. -/
theorem Twin.runProgram (rounds fuel maxSteps : Nat) :
  runProgram rounds fuel (.scope [x] body) maxSteps = runProgram rounds fuel (.scope [y] body') maxSteps
  := by
  obtain ⟨-, hsys⟩ := h.ofProgram hfits maxSteps
  have hreport := hsys.report rounds fuel (System.ofProgram (.scope [x] body) maxSteps).1
  exact hreport

end

end Declaring

end ActorLang
