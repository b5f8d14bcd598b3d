import ActorLang.Proofs.Machine.Statements

/-!
# Repeated catches

A catch that comes onto the stack on top of a catch of the same label is left out, so that the stack
of a loop does not grow.  The plain machine puts every catch on the stack.  Nobody can tell the two
apart, whatever a host does between their runs.
-/

namespace ActorLang

open Kernel (Ident Stmt)

/-! ### The plain machine -/

/-- Puts a statement on the stack. -/
def Stack.pushPlain (stack : Stack) (s : Stmt) (env : Env) : Stack := .stmt s env :: stack

section Push

/-! The machine, for any way of putting a statement on the stack. -/

variable (push : Stack → Stmt → Env → Stack)

def Next.onStackBy (stack : Stack) : Next → Except Fault Stack
  | rest => .ok stack
  | enter s env => .ok (push stack s env)
  | enterAll stmts env => .ok (stmts.foldr (fun s stack => push stack s env) stack)
  | guarded body caught handler env => .ok (push (.handler caught handler env :: stack) body env)
  | jump label => match stack.unwindTo label with
    | some stack => .ok stack
    | none => .error (.jump label)

def Machine.unwindBy (m : Machine) (value : Value) : Option Outcome × Machine :=
  match handlerBelow m.stack with
  | some (caught, s, env, rest) =>
    let (v, m) := m.onStore (·.newBound value)
    (none, { m with stack := push rest s (env.extend [(caught, v)]) })
  | none => (some (.halt value), { m with stack := [] })

namespace Session

def raiseBy (σ : Session) (f : Fault) : Option Outcome × Session :=
  let (value, machine) := σ.faultValue f
  let (outcome, machine) := machine.unwindBy push value
  (outcome, { σ with machine })

def interruptBy (σ : Session) (frame : Frame) : Interrupt → Option Outcome × Session
  | .suspend v => (some (.suspend (σ.store.root v)), σ.withStack (frame :: σ.stack))
  | .throw value =>
    let (outcome, machine) := σ.unwindBy push value
    (outcome, { σ with machine })
  | .fault f => σ.raiseBy push f

def proceedBy (σ : Session) (next : Next) : Option Outcome × Session :=
  match next.onStackBy push σ.stack with
  | .ok stack => (none, σ.withStack stack)
  | .error f => (σ.withStack []).raiseBy push f

def stepBy (σ : Session) : Option Outcome × Session :=
  match σ.stack with
  | [] => (some .done, σ)
  | .handler _ _ _ :: rest => (none, σ.withStack rest)
  | .stmt s env :: rest =>
    if σ.Limited then σ.exhausted
    else match (Exec.stmt env s).run (σ.popped rest) with
      | (.ok next, σ) => σ.proceedBy push next
      | (.error e, σ) => σ.interruptBy push (.stmt s env) e

end Session

end Push

variable {env : Env} {label steps : Nat} {r : Option Outcome × Session} {σ τ υ υ' : Session}
  {turns : List HostTurn} {outcomes : List Outcome} {outcome : Outcome} {plain stack rest : Stack}

namespace Session

variable (σ : Session)

section Steps

variable {push : Stack → Stmt → Env → Stack} {σ σ' : Session} {s : Stmt}

theorem Executes.stepBy_eq {result : Except Interrupt Next} (h : σ.Executes s env rest result σ') :
  σ.stepBy push = match result with
    | .ok next => σ'.proceedBy push next
    | .error e => σ'.interruptBy push (.stmt s env) e
  := by
  obtain ⟨hstack, hlimit, hrun⟩ := h
  simp only [stepBy, hstack, if_neg hlimit, hrun]
  cases result <;> rfl

end Steps

/-- The machine that leaves repeated catches out is the machine. -/
theorem stepBy_push :
  σ.stepBy Stack.push = σ.step
  := rfl

def plainStep : Option Outcome × Session := σ.stepBy Stack.pushPlain

end Session

/-! ### Stacks with more catches -/

namespace Stack

/-- The second stack is the first one with more catches on top of catches of the same label. -/
inductive Elides : Stack → Stack → Prop where
  | nil : Elides [] []
  | frame {stack plain : Stack} (f : Frame) (h : Elides stack plain) : Elides (f :: stack) (f :: plain)
  | repeated {stack plain label env env'}
      (h : Elides (.stmt (.jumpCatch label) env :: stack) plain) :
      Elides (.stmt (.jumpCatch label) env :: stack) (.stmt (.jumpCatch label) env' :: plain)

/-- The second stack has more catches also on top. -/
inductive Trails : Stack → Stack → Prop where
  | level {stack plain : Stack} (h : Elides stack plain) : Trails stack plain
  | more {stack plain : Stack} (label : Nat) (env : Env) (h : Trails stack plain) :
      Trails stack (.stmt (.jumpCatch label) env :: plain)

theorem Elides.refl (stack : Stack) :
  Elides stack stack
  := by
  induction stack with
  | nil => exact .nil
  | cons f _ ih => exact .frame f ih

/-- Both stacks have the same on top. -/
inductive SameTop : Stack → Stack → Prop where
  | nil : SameTop [] []
  | frame {stack plain : Stack} (f : Frame) (h : Elides stack plain) : SameTop (f :: stack) (f :: plain)

theorem Trails.ahead (h : Trails stack plain) :
  (∃ label env rest, plain = .stmt (.jumpCatch label) env :: rest ∧ Trails stack rest) ∨ SameTop stack plain
  := by
  cases h with
  | more label env h => exact .inl ⟨label, env, _, rfl, h⟩
  | level h =>
    cases h with
    | nil => exact .inr .nil
    | frame f h => exact .inr (.frame f h)
    | repeated h => exact .inl ⟨_, _, _, rfl, .level h⟩

theorem Elides.push (h : Elides stack plain) (s : Stmt) (env : Env) :
  Elides (stack.push s env) (plain.pushPlain s env)
  := by
  fun_cases Stack.push stack s env with
  | case1 => exact .repeated h
  | case2 | case3 => exact .frame _ h

theorem Elides.handlerBelow (h : Elides stack plain) :
  (Machine.handlerBelow stack = none ∧ Machine.handlerBelow plain = none) ∨
  ∃ caught s env below plainBelow, Machine.handlerBelow stack = some (caught, s, env, below) ∧
    Machine.handlerBelow plain = some (caught, s, env, plainBelow) ∧ Elides below plainBelow
  := by
  induction h with
  | nil => exact .inl ⟨rfl, rfl⟩
  | @frame stack plain f h ih =>
    cases f with
    | stmt => exact ih
    | handler caught s env => exact .inr ⟨caught, s, env, stack, plain, rfl, rfl, h⟩
  | repeated h ih => exact ih

theorem Elides.leave (h : Elides (.stmt (.jumpCatch label) env :: stack) plain) :
  Trails stack plain
  := by
  generalize htop : Frame.stmt (.jumpCatch label) env :: stack = top at h
  induction h with
  | nil => cases htop
  | frame f h =>
    cases htop
    exact .more label env (.level h)
  | repeated _ ih =>
    cases htop
    exact .more _ _ (ih rfl)

theorem Elides.unwindTo (h : Elides stack plain) (label : Nat) :
  (stack.unwindTo label = none ∧ plain.unwindTo label = none) ∨
  ∃ below plainBelow, stack.unwindTo label = some below ∧ plain.unwindTo label = some plainBelow ∧
    Trails below plainBelow
  := by
  induction h with
  | nil => exact .inl ⟨rfl, rfl⟩
  | @frame stack plain f h ih =>
    rw [unwindTo_cons, unwindTo_cons]
    split
    · exact .inr ⟨stack, plain, rfl, rfl, .level h⟩
    · exact ih
  | @repeated stack plain _ _ _ h ih =>
    rw [unwindTo_cons label _ plain]
    split
    case isTrue heq =>
      cases heq
      exact .inr ⟨stack, plain, unwindTo_catch .., rfl, h.leave⟩
    case isFalse => exact ih

end Stack

/-! ### Steps of both machines -/

theorem Stack.Elides.onStack {stack plain : Stack} (h : Elides stack plain) (next : Next) :
  (∃ f, next.onStack stack = .error f ∧ next.onStackBy pushPlain plain = .error f) ∨
  ∃ after plainAfter, next.onStack stack = .ok after ∧
    next.onStackBy pushPlain plain = .ok plainAfter ∧ Trails after plainAfter
  := by
  cases next with
  | rest => exact .inr ⟨_, _, rfl, rfl, .level h⟩
  | enter s env => exact .inr ⟨_, _, rfl, rfl, .level (h.push s env)⟩
  | enterAll stmts env =>
    refine .inr ⟨_, _, rfl, rfl, .level ?_⟩
    induction stmts with
    | nil => exact h
    | cons s _ ih => exact ih.push s env
  | guarded body caught handler env =>
    exact .inr ⟨_, _, rfl, rfl, .level ((h.frame (.handler caught handler env)).push body env)⟩
  | jump label =>
    rcases h.unwindTo label with ⟨hnone, hplain⟩ | ⟨below, plainBelow, hsome, hplain, htrails⟩
    · exact .inl ⟨.jump label, by simp only [Next.onStack, hnone], by simp only [Next.onStackBy, hplain]⟩
    · exact .inr ⟨below, plainBelow, by simp only [Next.onStack, hsome], by simp only [Next.onStackBy, hplain], htrails⟩

namespace Session

/-- The plain machine has come to the same as the machine, except for catches.  If a run has ended, these are
not on top. -/
structure Matches (r plain : Option Outcome × Session) : Prop where
  outcome : plain.1 = r.1
  session : ∃ stack steps, plain.2 = r.2.reframe stack steps ∧ Stack.Trails r.2.stack stack ∧
    (r.1 ≠ none → Stack.Elides r.2.stack stack)

variable {σ : Session}

section

variable (h : Stack.Elides σ.stack plain)

include h

theorem matches_unwind (value : Value) (steps : Nat) :
  Matches ((σ.unwind value).1, { σ with machine := (σ.unwind value).2 })
    (((σ.reframe plain steps).unwindBy Stack.pushPlain value).1,
      { σ with machine := ((σ.reframe plain steps).unwindBy Stack.pushPlain value).2 })
  := by
  have hstack : (σ.reframe plain steps).stack = plain := rfl
  rcases h.handlerBelow with ⟨hnone, hplain⟩ | ⟨_, s, _, _, _, hsome, hplain, helides⟩
  · rw [Machine.unwind_of_handlerBelow_none hnone]
    simp only [Machine.unwindBy, hstack, hplain]
    exact ⟨rfl, [], steps, rfl, .level .nil, fun _ => .nil⟩
  · rw [Machine.unwind_of_handlerBelow hsome]
    simp only [Machine.unwindBy, hstack, hplain]
    exact ⟨rfl, _, steps, rfl, .level (helides.push s _), fun hnone => (hnone rfl).elim⟩

theorem matches_raise (f : Fault) (steps : Nat) :
  Matches (σ.raise f) ((σ.reframe plain steps).raiseBy Stack.pushPlain f)
  := matches_unwind (σ := { σ with machine := (σ.faultValue f).2 }) h (σ.faultValue f).1 steps

theorem matches_proceed (next : Next) (steps : Nat) :
  Matches (σ.proceed next) ((σ.reframe plain steps).proceedBy Stack.pushPlain next)
  := by
  have hplain : (σ.reframe plain steps).stack = plain := rfl
  rw [proceed, proceedBy, hplain]
  rcases h.onStack next with ⟨f, hon, hon'⟩ | ⟨_, plainAfter, hon, hon', htrails⟩
  · rw [hon, hon']
    exact matches_raise (σ := σ.withStack []) .nil f steps
  · rw [hon, hon']
    exact ⟨rfl, plainAfter, steps, rfl, htrails, fun hnone => (hnone rfl).elim⟩

theorem matches_interrupt (frame : Frame) (e : Interrupt) (steps : Nat) :
  Matches (σ.interrupt frame e) ((σ.reframe plain steps).interruptBy Stack.pushPlain frame e)
  := by
  cases e with
  | suspend => exact ⟨rfl, frame :: plain, steps, rfl, .level (h.frame frame), fun _ => h.frame frame⟩
  | throw value => exact matches_unwind h value steps
  | fault f => exact matches_raise h f steps

end

theorem not_limited (h : σ.maxSteps = 0) :
  ¬ σ.Limited
  := by
  rintro ⟨_, -⟩
  omega

theorem plainStep_catch (h : σ.maxSteps = 0) (label : Nat) (env : Env) (plain : Stack) (steps : Nat) :
  (σ.reframe (.stmt (.jumpCatch label) env :: plain) steps).plainStep = (none, σ.reframe plain (steps + 1))
  := by
  have hexecutes : (σ.reframe (.stmt (.jumpCatch label) env :: plain) steps).Executes (.jumpCatch label) env
      plain (.ok .rest) (σ.reframe plain (steps + 1)) := ⟨rfl, not_limited h, rfl⟩
  exact hexecutes.stepBy_eq

/-- Both machines are done, or take a step with the same frame. -/
theorem matches_step (hmax : σ.maxSteps = 0) (h : Stack.SameTop σ.stack plain) (steps : Nat) :
  Matches σ.step (σ.reframe plain steps).plainStep
  := by
  generalize hstack : σ.stack = stack at h
  cases h with
  | nil =>
    rw [step_done hstack]
    refine ⟨rfl, [], steps, rfl, ?_⟩
    rw [hstack]
    exact ⟨.level .nil, fun _ => .nil⟩
  | @frame below plainBelow f helides =>
    cases f with
    | handler caught s env =>
      rw [step_leave hstack]
      exact ⟨rfl, plainBelow, steps, rfl, .level helides, fun hnone => (hnone rfl).elim⟩
    | stmt s env =>
      have hblind := (Exec.staged_stmt env s).blind
      cases hrun : (Exec.stmt env s).run (σ.popped below) with
      | mk result σ' =>
      have hexecutes : σ.Executes s env below result σ' := ⟨hstack, not_limited hmax, hrun⟩
      have hplain : (σ.reframe (.stmt s env :: plainBelow) steps).Executes s env plainBelow result
          (σ'.reframe plainBelow (steps + 1)) := by
        refine ⟨rfl, not_limited hmax, ?_⟩
        have hplain := hblind (σ.popped below) plainBelow (steps + 1)
        rwa [hrun] at hplain
      have hbelow : σ'.stack = below := by
        have hstack := hblind.stack (σ.popped below)
        rwa [hrun] at hstack
      rw [← hbelow] at helides
      cases result with
      | ok next =>
        rw [hexecutes.step_ok, plainStep, hplain.stepBy_eq]
        exact matches_proceed helides next (steps + 1)
      | error e =>
        rw [hexecutes.step_error, plainStep, hplain.stepBy_eq]
        exact matches_interrupt helides (.stmt s env) e (steps + 1)

/-! ### Runs of both machines -/

/-- The run of a machine ends with this outcome, and leaves this session. -/
inductive Ends (step : Session → Option Outcome × Session) : Session → Outcome → Session → Prop where
  | last {σ τ : Session} {outcome : Outcome} (h : step σ = (some outcome, τ)) : Ends step σ outcome τ
  | next {σ σ' τ outcome} (h : step σ = (none, σ')) (rest : Ends step σ' outcome τ) :
      Ends step σ outcome τ

/-- The session of the plain machine, between runs, for one of the machine without a limit of steps. -/
def Alike (σ τ : Session) : Prop :=
  σ.maxSteps = 0 ∧ ∃ stack steps, τ = σ.reframe stack steps ∧ Stack.Elides σ.stack stack

theorem maxSteps_step (σ : Session) :
  σ.step.2.maxSteps = σ.maxSteps
  := by
  rcases read_step (·.maxSteps) (fun _ _ _ => rfl) σ with h | ⟨s, env, rest, h⟩
  · exact h
  · exact h.trans (congrArg (·.2.1) ((Exec.staged_stmt env s).settings (σ.popped rest)))

theorem Matches.last (h : Matches (some outcome, σ) r) (hmax : σ.maxSteps = 0) :
  ∃ τ, r = (some outcome, τ) ∧ σ.Alike τ
  := by
  obtain ⟨houtcome, stack, steps, hsession, -, helides⟩ := h
  exact ⟨r.2, Prod.ext houtcome rfl, hmax, stack, steps, hsession, helides (Option.some_ne_none _)⟩

theorem Matches.next (h : Matches (none, σ) r) :
  ∃ stack steps, r = (none, σ.reframe stack steps) ∧ Stack.Trails σ.stack stack
  := by
  obtain ⟨houtcome, stack, steps, hsession, htrails, -⟩ := h
  exact ⟨stack, steps, Prod.ext houtcome hsession, htrails⟩

theorem exists_sameTop (hmax : σ.maxSteps = 0) (h : Stack.Trails σ.stack plain) (steps : Nat) :
  ∃ plain' steps', Stack.SameTop σ.stack plain' ∧ ∀ {outcome τ},
    Ends plainStep (σ.reframe plain' steps') outcome τ → Ends plainStep (σ.reframe plain steps) outcome τ
  := by
  induction plain generalizing steps with
  | nil =>
    rcases h.ahead with ⟨_, _, _, hplain, -⟩ | hsame
    · cases hplain
    · exact ⟨[], steps, hsame, id⟩
  | cons f plain ih =>
    rcases h.ahead with ⟨label, env, _, hplain, htrails⟩ | hsame
    · cases hplain
      obtain ⟨plain', steps', hsame, hends⟩ := ih htrails (steps + 1)
      exact ⟨plain', steps', hsame, fun h => .next (plainStep_catch hmax label env plain steps) (hends h)⟩
    · exact ⟨f :: plain, steps, hsame, id⟩

/-- If a run of the machine ends, so does that of the plain machine. -/
theorem Ends.toPlain (h : Ends step σ outcome τ) (hmax : σ.maxSteps = 0)
    (htrails : Stack.Trails σ.stack plain) (steps : Nat) :
  ∃ τ', Ends plainStep (σ.reframe plain steps) outcome τ' ∧ τ.Alike τ'
  := by
  induction h generalizing plain steps with
  | @last σ τ _ hstep =>
    obtain ⟨_, steps, hsame, hends⟩ := exists_sameTop hmax htrails steps
    have hmatches := matches_step hmax hsame steps
    have hmax' := σ.maxSteps_step
    rw [hstep] at hmatches hmax'
    obtain ⟨τ', hstep', halike⟩ := hmatches.last (hmax'.trans hmax)
    exact ⟨τ', hends (.last hstep'), halike⟩
  | @next σ σ' τ _ hstep _ ih =>
    obtain ⟨_, steps, hsame, hends⟩ := exists_sameTop hmax htrails steps
    have hmatches := matches_step hmax hsame steps
    have hmax' := σ.maxSteps_step
    rw [hstep] at hmatches hmax'
    obtain ⟨_, steps', hstep', htrails'⟩ := hmatches.next
    obtain ⟨τ', hrest, halike⟩ := ih (hmax'.trans hmax) htrails' steps'
    exact ⟨τ', hends (.next hstep' hrest), halike⟩

/-- If a run of the plain machine ends, so does that of the machine. -/
theorem Ends.ofPlain {τ₀ τ' : Session} (h : Ends plainStep τ₀ outcome τ')
    (hτ₀ : τ₀ = σ.reframe plain steps) (hmax : σ.maxSteps = 0)
    (htrails : Stack.Trails σ.stack plain) :
  ∃ τ, Ends step σ outcome τ ∧ τ.Alike τ'
  := by
  induction h generalizing σ plain steps with
  | @last _ τ' outcome hstep' =>
    subst hτ₀
    rcases htrails.ahead with ⟨_, _, _, rfl, -⟩ | hsame
    · rw [plainStep_catch hmax] at hstep'
      cases hstep'
    · have hmatches := matches_step hmax hsame steps
      have hmax' := σ.maxSteps_step
      rw [hstep'] at hmatches
      generalize hstep : σ.step = stepped at hmatches hmax'
      obtain ⟨_, τ⟩ := stepped
      cases hmatches.outcome
      obtain ⟨_, hτ', halike⟩ := hmatches.last (hmax'.trans hmax)
      cases hτ'
      exact ⟨τ, .last hstep, halike⟩
  | @next _ σ' τ' outcome hstep' _ ih =>
    subst hτ₀
    rcases htrails.ahead with ⟨_, _, _, rfl, hbelow⟩ | hsame
    · rw [plainStep_catch hmax] at hstep'
      cases hstep'
      exact ih rfl hmax hbelow
    · have hmatches := matches_step hmax hsame steps
      have hmax' := σ.maxSteps_step
      rw [hstep'] at hmatches
      generalize hstep : σ.step = stepped at hmatches hmax'
      obtain ⟨_, _⟩ := stepped
      cases hmatches.outcome
      obtain ⟨_, _, hσ', htrails'⟩ := hmatches.next
      cases hσ'
      obtain ⟨τ, hrest, halike⟩ := ih rfl (hmax'.trans hmax) htrails'
      exact ⟨τ, .next hstep hrest, halike⟩

theorem ends_iff_continueRun :
  Ends step σ outcome τ ↔ ∃ fuel, σ.continueRun fuel = (some outcome, τ)
  := by
  constructor
  · intro h
    induction h with
    | last h => exact ⟨1, by simp only [continueRun, h]⟩
    | next h _ ih =>
      obtain ⟨fuel, hfuel⟩ := ih
      exact ⟨fuel + 1, by simp only [continueRun, h, hfuel]⟩
  · rintro ⟨fuel, h⟩
    induction fuel generalizing σ with
    | zero => cases h
    | succ _ ih =>
      rw [continueRun] at h
      split at h
      next σ' hstep => exact .next hstep (ih h)
      next outcome' σ' hstep =>
        cases h
        exact .last hstep

/-! ### Hosts -/

/-- All of a session but the stack and the count of steps. -/
def bare (σ : Session) : Session := σ.reframe [] 0

end Session

/-- What a host does between two runs.  It sees a session without its stack, it may change all that it sees, such
as bind variables, and it may give the machine more to do. -/
structure HostTurn where
  change : Session → Session
  work : Session → List (Stmt × Env)

namespace Session

/-- The session in which the machine goes on after the turn of a host. -/
def resume (push : Stack → Stmt → Env → Stack) (turn : HostTurn) (σ : Session) : Session :=
  let work := (turn.work σ.bare).foldr (fun b stack => push stack b.1 b.2) σ.stack
  let σ' := (turn.change σ.bare).reframe work 0
  { σ' with maxSteps := σ.maxSteps }

/-- The outcomes of the runs of a machine, with turns of a host between them. -/
inductive Talks (step : Session → Option Outcome × Session) (push : Stack → Stmt → Env → Stack) :
    Session → List HostTurn → List Outcome → Session → Prop where
  | last {σ τ : Session} {outcome : Outcome} (h : Ends step σ outcome τ) :
      Talks step push σ [] [outcome] τ
  | turn {σ τ υ outcome t turns outcomes} (h : Ends step σ outcome τ)
      (rest : Talks step push (τ.resume push t) turns outcomes υ) :
      Talks step push σ (t :: turns) (outcome :: outcomes) υ

theorem Alike.resume (h : σ.Alike τ) (t : HostTurn) :
  (σ.resume Stack.push t).Alike (τ.resume Stack.pushPlain t)
  := by
  obtain ⟨hmax, stack, steps, rfl, helides⟩ := h
  refine ⟨hmax, _, 0, rfl, ?_⟩
  have hbare : (σ.reframe stack steps).bare = σ.bare := rfl
  simp only [Session.resume, hbare]
  generalize t.work σ.bare = work
  induction work with
  | nil => exact helides
  | cons b _ ih => exact ih.push b.1 b.2

section Imitation

variable {step step' : Session → Option Outcome × Session} {push push' : Stack → Stmt → Env → Stack}
  {R : Session → Session → Prop}

/-- A machine that imitates each run of another one, and the turns of a host, imitates it throughout. -/
theorem Talks.imitate
    (hends : ∀ {σ τ υ outcome}, R σ τ → Ends step σ outcome υ → ∃ υ', Ends step' τ outcome υ' ∧ R υ υ')
    (hturn : ∀ {σ τ} t, R σ τ → R (σ.resume push t) (τ.resume push' t))
    (h : Talks step push σ turns outcomes υ) (hτ : R σ τ) :
  ∃ υ', Talks step' push' τ turns outcomes υ' ∧ R υ υ'
  := by
  induction h generalizing τ with
  | last h =>
    obtain ⟨υ', hends', hυ'⟩ := hends hτ h
    exact ⟨υ', .last hends', hυ'⟩
  | turn h _ ih =>
    obtain ⟨_, hends', hτ'⟩ := hends hτ h
    obtain ⟨υ', hrest, hυ'⟩ := ih (hturn _ hτ')
    exact ⟨υ', .turn hends' hrest, hυ'⟩

end Imitation

/-- Without a limit of steps, the machine and the plain machine cannot be told apart.  They begin with the same
work, and a host does the same things between their runs.  Then the one comes to a sequence of outcomes exactly if
the other one does, and they leave the same store, the same requests and spawns, and the same world. -/
theorem elision_unobservable {σ : Session} (hmax : σ.maxSteps = 0) (turns : List HostTurn)
    (outcomes : List Outcome) (left : Session) :
  (∃ υ, Talks step Stack.push σ turns outcomes υ ∧ υ.bare = left) ↔
    ∃ υ, Talks plainStep Stack.pushPlain σ turns outcomes υ ∧ υ.bare = left
  := by
  have halike : σ.Alike σ := ⟨hmax, _, _, rfl, .refl _⟩
  constructor
  · rintro ⟨_, hυ, rfl⟩
    obtain ⟨_, hυ', -, _, _, rfl, -⟩ := hυ.imitate (fun ⟨hmax, _, _, hτ, helides⟩ h =>
      hτ ▸ h.toPlain hmax (.level helides) _) (fun t h => h.resume t) halike
    exact ⟨_, hυ', rfl⟩
  · rintro ⟨_, hυ', rfl⟩
    obtain ⟨υ, hυ, -, _, _, rfl, -⟩ := hυ'.imitate (R := fun τ σ => σ.Alike τ)
      (fun ⟨hmax, _, _, hτ, helides⟩ h => h.ofPlain hτ hmax (.level helides)) (fun t h => h.resume t) halike
    exact ⟨υ, hυ, rfl⟩

/-- The machine has two catches of the same label to go through, and then it fills a cell.  First it looks at a
condition, which is not bound yet. -/
def twoCatches : Session :=
  let env : Env := [("condition", 0), ("cell", 1)]
  { machine := {
      store := { slots := #[.unbound, .bound (.scalar (.cell 0))], cells := #[.lit .null] }
      stack := [.stmt (.seq [.ifElse (.ident "condition") (.jumpThrow 3) .skip, .jumpCatch 3, .jumpCatch 3,
        .set (.ident "cell") (.lit (.int32 7))]) env] }
    world := {} }

def bindCondition : HostTurn where
  change σ := σ.withStore (σ.store.setSlot 0 (.bound (.scalar (.lit (.bool true)))))
  work _ := []

/-- Both machines wait for the condition, and fill the cell after the jump. -/
theorem elision_unobservable_twoCatches :
  ∃ υ, Talks plainStep Stack.pushPlain twoCatches [bindCondition] [.suspend 0, .done] υ ∧
    υ.bare.store.cells = #[.lit (.int32 7)]
  := by
  have hwaits : Ends step twoCatches (.suspend 0) (twoCatches.continueRun 2).2 :=
    ends_iff_continueRun.mpr ⟨2, rfl⟩
  have hdone : Ends step ((twoCatches.continueRun 2).2.resume Stack.push bindCondition) .done
      (((twoCatches.continueRun 2).2.resume Stack.push bindCondition).continueRun 4).2 :=
    ends_iff_continueRun.mpr ⟨4, rfl⟩
  have h := elision_unobservable (σ := twoCatches) rfl [bindCondition] [.suspend 0, .done]
  obtain ⟨υ, htalks, hbare⟩ := (h _).mp ⟨_, .turn hwaits (.last hdone), rfl⟩
  refine ⟨υ, htalks, ?_⟩
  rw [hbare]
  rfl

end Session

end ActorLang
