import ActorLang.Proofs.Actor.Sharing

/-!
# Programs that start no actors

A program is evaluated on a machine outside of any actor, or by the first actor of a system.  The
two take the same steps as long as there are no other actors, so the system of a program gives the
report of its evaluation.
-/

namespace ActorLang

open Kernel (Stmt)

/-- There are no actors. -/
def Mode.alone : Mode := { Mode.lax with actors := False }

/-- How the work of an actor that waits for no response comes to rest. -/
def Outcome.turnEnd : Outcome → TurnEnd
  | .done => .done
  | .suspend _ => .suspended
  | .halt v => .halted v

/-- What the actor of a program is doing after a run of its machine. -/
def phaseAfter : Option Outcome → Phase
  | none => .running .program
  | some outcome => .finished outcome.turnEnd

namespace Session

variable {σ τ : Session} {w : World} {fuel : Nat}

theorem continueRun_add (h : continueRun fuel σ = (none, τ)) (n : Nat) :
  continueRun (fuel + n) σ = continueRun n τ
  := by
  induction fuel generalizing σ with
  | zero =>
    cases h
    rw [Nat.zero_add]
  | succ _ ih =>
    rw [Nat.succ_add_eq_add_succ, Nat.add_succ]
    rw [continueRun] at h ⊢
    split at h
    next => exact ih h
    next => cases h

/-- No step of the run starts an actor.  The machine is outside of any actor: `spawn`, applied to the configuration
of one, throws this fault, and nothing else does. -/
def StartsNone (σ : Session) : Prop :=
  ∀ fuel τ, continueRun fuel σ = (none, τ) → τ.fault? ≠ some .spawnOutsideActor

theorem StartsNone.later (h : σ.StartsNone) (hrun : continueRun fuel σ = (none, τ)) :
  τ.StartsNone
  := fun n υ hυ => h (fuel + n) υ ((continueRun_add hrun n).trans hυ)

def asActor (σ : Session) (phase : Phase) : Actor :=
  { id := 0, machine := { σ.machine with self := some 0 }, phase }

def system (σ : Session) (phase : Phase) (w : World) (maxSteps : Nat) : System :=
  { world := w, actors := #[σ.asActor phase], maxSteps }

/-- The actor takes the step of the machine outside of any actor. -/
theorem stepTask_asActor (h : σ.Abides .alone) (hstarts : σ.StartsNone) (hw : σ.world.Like .alone w) :
  ∃ w', (σ.asActor (.running .program)).stepTask w .program = (σ.step.2.asActor (phaseAfter σ.step.1), w', {}) ∧
    σ.step.2.world.Like .alone w' ∧ σ.step.2.Abides .alone
  := by
  have hstep : Unaffected .alone (some 0) σ σ.step _ := h.step id False.elim (.inr (hstarts 0 σ rfl)) (.inl trivial) hw
  obtain ⟨houtcome, hmachine, -, hlike, habides, -⟩ := hstep
  generalize hnext : (⟨{ σ.machine with self := some 0 }, w⟩ : Session).step = next at houtcome hmachine hlike
  obtain ⟨outcome, m, w'⟩ := next
  subst houtcome hmachine
  refine ⟨w', ?_, hlike, habides⟩
  obtain ⟨-, hpending, hspawns⟩ := habides.machine.alone.resolve_left id
  rw [asActor, Actor.stepTask]
  rw [hnext]
  cases σ.step.1 with
  | none => rfl
  | some outcome =>
    have hquiet : Machine.hasPending { σ.step.2.machine with self := some 0, spawns := [] } = false := by
      rw [Machine.hasPending, hpending]
      rfl
    cases outcome <;> simp [Actor.rest, hquiet, hspawns, Actor.endTask, asActor, phaseAfter, Outcome.turnEnd]

end Session

namespace System

variable {σ τ : Session} {w : World} {outcome : Option Outcome} {fuel : Nat}

theorem poll_finished {a : Actor} {e : TurnEnd} (h : a.phase = .finished e) (index fuel : Nat) (moved : Bool)
    (sys : System) :
  poll index fuel moved a sys = (moved, { sys with actors := sys.actors.setIfInBounds index a })
  := by
  cases fuel with
  | zero => rfl
  | succ => simp [poll, Actor.step, h]

theorem poll_asActor (hrun : Session.continueRun fuel σ = (outcome, τ)) (h : σ.Abides .alone)
    (hstarts : σ.StartsNone) (moved : Bool) (sys : System) (hw : σ.world.Like .alone sys.world) :
  ∃ w, poll 0 fuel moved (σ.asActor (.running .program)) sys = (moved || decide (0 < fuel), { sys with
        world := w
        actors := sys.actors.setIfInBounds 0 (τ.asActor (phaseAfter outcome)) }) ∧
    τ.world.Like .alone w ∧ τ.Abides .alone
  := by
  induction fuel generalizing σ moved sys with
  | zero =>
    cases hrun
    exact ⟨sys.world, by simp [poll, phaseAfter], hw, h⟩
  | succ fuel ih =>
    obtain ⟨w, htask, hlike, habides⟩ := Session.stepTask_asActor h hstarts hw
    have hpoll : poll 0 (fuel + 1) moved (σ.asActor (.running .program)) sys =
        poll 0 fuel true (σ.step.2.asActor (phaseAfter σ.step.1)) { sys with world := w } := by
      rw [poll, Actor.step]
      simp only [Session.asActor] at htask
      simp [Session.asActor, htask, record]
    rw [hpoll]
    rw [Session.continueRun] at hrun
    split at hrun
    next σ' hstep =>
      simp only [hstep] at hlike habides ⊢
      have hone : Session.continueRun 1 σ = (none, σ') := by
        rw [Session.continueRun, hstep]
        rfl
      have hlater := hstarts.later hone
      obtain ⟨w', hpoll, hrest⟩ := ih hrun habides hlater true { sys with world := w } hlike
      exact ⟨w', hpoll.trans (by simp), hrest⟩
    next o σ' hstep =>
      cases hrun
      simp only [hstep] at hlike habides ⊢
      exact ⟨w, by simpa using poll_finished rfl 0 fuel true _, hlike, habides⟩

/-- A round of a system is a run of the machine. -/
theorem round_system (hrun : Session.continueRun fuel σ = (outcome, τ)) (h : σ.Abides .alone)
    (hstarts : σ.StartsNone) (hw : σ.world.Like .alone w) (maxSteps : Nat) :
  ∃ w', (σ.system (.running .program) w maxSteps).round fuel =
      (decide (0 < fuel), τ.system (phaseAfter outcome) w' maxSteps) ∧
    τ.world.Like .alone w' ∧ τ.Abides .alone
  := by
  obtain ⟨w', hpoll, hlike, habides⟩ := poll_asActor hrun h hstarts false
    { σ.system (.running .program) w maxSteps with actors := #[default] } hw
  refine ⟨w', ?_, hlike, habides⟩
  simp only [Session.system] at hpoll
  simp [round, pollAt, Session.system, hpoll]

theorem run_finished (σ : Session) (e : TurnEnd) (w : World) (maxSteps rounds fuel : Nat) :
  (σ.system (.finished e) w maxSteps).run (rounds + 1) fuel = some (σ.system (.finished e) w maxSteps)
  := by
  have hround : (σ.system (.finished e) w maxSteps).round fuel = (false, σ.system (.finished e) w maxSteps) := by
    simp [round, pollAt, Session.system, poll_finished (a := σ.asActor (.finished e)) rfl]
  rw [run, hround]
  rfl

theorem evaluation?_system (σ : Session) (outcome : Outcome) (w : World) (maxSteps : Nat) (result : VarId) :
  (σ.system (.finished outcome.turnEnd) w maxSteps).evaluation? result = some (σ.evaluation result outcome)
  := by
  cases outcome <;> rfl

/-- The system comes to rest when the machine does. -/
theorem run_system {sys : System} {rounds maxSteps : Nat} (h : σ.Abides .alone) (hstarts : σ.StartsNone)
    (hw : σ.world.Like .alone w) (hrun : (σ.system (.running .program) w maxSteps).run rounds fuel = some sys) :
  ∃ n outcome τ w', Session.continueRun n σ = (some outcome, τ) ∧ sys = τ.system (.finished outcome.turnEnd) w' maxSteps
  := by
  induction rounds generalizing σ w with
  | zero => cases hrun
  | succ rounds ih =>
    cases hmachine : Session.continueRun fuel σ with
    | mk outcome τ =>
      obtain ⟨w', hround, hlike, habides⟩ := round_system hmachine h hstarts hw maxSteps
      rw [run, hround] at hrun
      cases fuel with
      | zero =>
        cases hmachine
        cases hrun
      | succ fuel =>
        cases outcome with
        | none =>
          obtain ⟨n, outcome, υ, u, hrest, rfl⟩ := ih habides (hstarts.later hmachine) hlike hrun
          exact ⟨fuel + 1 + n, outcome, υ, u, (Session.continueRun_add hmachine n).trans hrest, rfl⟩
        | some outcome =>
          refine ⟨fuel + 1, outcome, τ, w', hmachine, ?_⟩
          cases rounds with
          | zero => cases hrun
          | succ => exact Option.some.inj (hrun.symm.trans (run_finished ..))

end System

/-! ### Programs -/

def Session.ofProgram (program : Stmt) (maxSteps : Nat) : Session :=
  Session.startRun ⟨((Machine.create maxSteps none).load program).2, {}⟩

theorem Machine.Abides.define {M : Mode} {m : Machine} {v : Value} (h : m.Abides M) (name : Kernel.Ident)
    (hv : v.Allowed M) :
  (m.define name v).Abides M
  := ⟨@Store.Fits.run _ _ h.fits (.newBound v) hv, h.alone.imp_right fun h => ⟨h.self, h.pending, h.spawns⟩⟩

theorem Machine.abides_create (M : Mode) (maxSteps : Nat) :
  (Machine.create maxSteps none).Abides M
  := by
  refine create_induction ⟨⟨?_, ?_, ?_⟩, .inr ⟨rfl, rfl, rfl⟩⟩ ?_ ?_
  · simp
  · simp
  · simp
  · intro m name r hr hm
    have hrecord : (Store.Operation.newRecord r).Allowed M := by
      refine List.forall_mem_map.mpr fun f hf => ?_
      obtain ⟨_, _, hleaf⟩ := hr f hf
      rw [hleaf]
      rintro a ⟨⟩
      trivial
    exact Machine.Abides.define (hm.change (hm.fits.run hrecord) m.stack) name nofun
  · exact fun m name owner b hm => hm.define name fun a ha => by cases ha; trivial

theorem Session.abides_ofProgram (program : Stmt) (maxSteps : Nat) :
  (Session.ofProgram program maxSteps).Abides .alone
  := by
  obtain ⟨hfits, -⟩ := Machine.abides_create .alone maxSteps
  exact ⟨⟨@Store.Fits.run _ _ hfits .newVar trivial, .inr ⟨rfl, rfl, rfl⟩⟩, fun _ _ _ => trivial⟩

theorem evaluate_eq_some_iff {fuel : Nat} {program : Stmt} {maxSteps : Nat} {e : Evaluation} :
  evaluate fuel program maxSteps = some e ↔
    ∃ outcome τ, Session.continueRun fuel (.ofProgram program maxSteps) = (some outcome, τ) ∧
      τ.evaluation ((Machine.create maxSteps none).load program).1 outcome = e
  := by
  unfold evaluate Session.run Session.ofProgram
  dsimp only
  generalize Session.continueRun _ _ = r
  obtain ⟨_ | outcome, τ⟩ := r <;> simp

theorem System.ofProgram_eq (program : Stmt) (maxSteps : Nat) :
  System.ofProgram program maxSteps = (((Machine.create maxSteps none).load program).1,
    (Session.ofProgram program maxSteps).system (.running .program) { mailboxes := #[{}] } maxSteps)
  := rfl

/-- Let the evaluation of a program start no actors.  Then it gives the report of the system of the program, and
no actor halts. -/
theorem runProgram_iff_evaluate (program : Stmt) (maxSteps : Nat)
    (hstarts : (Session.ofProgram program maxSteps).StartsNone) (e : Evaluation) :
  ((∃ fuel, evaluate fuel program maxSteps = some e) ↔
    ∃ rounds fuel, runProgram rounds fuel program maxSteps = some e) ∧
  ∀ rounds fuel, runProgram rounds fuel program maxSteps = some e → e.halts = []
  := by
  have habides := Session.abides_ofProgram program maxSteps
  have hlike : (Session.ofProgram program maxSteps).world.Like .alone { mailboxes := #[{}] } :=
    ⟨fun _ => rfl, fun _ => False.elim, fun _ => rfl, fun _ _ => rfl, (absurd trivial ·)⟩
  have hback {rounds fuel : Nat} (hrun : runProgram rounds fuel program maxSteps = some e) :
      ∃ n, evaluate n program maxSteps = some e ∧ e.halts = [] := by
    rw [runProgram, Option.bind_eq_some_iff] at hrun
    obtain ⟨_, hrun, he⟩ := hrun
    obtain ⟨n, outcome, τ, w, hmachine, rfl⟩ := System.run_system habides hstarts hlike hrun
    rw [System.evaluation?_system, Option.some.injEq] at he
    exact ⟨n, evaluate_eq_some_iff.mpr ⟨outcome, τ, hmachine, he⟩, he ▸ by cases outcome <;> rfl⟩
  refine ⟨⟨?_, ?_⟩, ?_⟩
  · rintro ⟨fuel, heval⟩
    obtain ⟨outcome, τ, hmachine, he⟩ := evaluate_eq_some_iff.mp heval
    obtain ⟨w, hround, -, -⟩ := System.round_system hmachine habides hstarts hlike maxSteps
    have hfuel : 0 < fuel := by
      rcases fuel with _ | fuel
      · cases hmachine
      · exact fuel.succ_pos
    have hrun : System.run 2 fuel (System.ofProgram program maxSteps).2 =
        some (τ.system (.finished outcome.turnEnd) w maxSteps) := by
      rw [System.ofProgram_eq, System.run, hround, decide_eq_true hfuel]
      exact System.run_finished ..
    refine ⟨2, fuel, ?_⟩
    rw [runProgram]
    dsimp only
    rw [hrun, System.ofProgram_eq, Option.bind_some, System.evaluation?_system, he]
  · rintro ⟨_, _, hrun⟩
    obtain ⟨n, hn, -⟩ := hback hrun
    exact ⟨n, hn⟩
  · intro _ _ hrun
    obtain ⟨-, -, hhalts⟩ := hback hrun
    exact hhalts

theorem runProgram_iff_evaluate_throw :
  ∃ rounds fuel, runProgram rounds fuel (.throw (.lit (.int32 3))) 0 = some { status := .halted, value := "3" }
  := by
  have hstarts : (Session.ofProgram (.throw (.lit (.int32 3))) 0).StartsNone := by
    intro fuel _ hrun
    cases fuel with
    | zero =>
      cases hrun
      intro hfault
      cases hfault
    | succ => cases hrun
  apply (runProgram_iff_evaluate (.throw (.lit (.int32 3))) 0 hstarts _).1.mp
  exact ⟨1, by cbv⟩

end ActorLang
