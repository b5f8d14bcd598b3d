import ActorLang.Evaluation
import ActorLang.Proofs.Machine.Statements

/-!
# Statements that differ in a name

Two statements are twins if they are the same but for the names of variables that they read, and
corresponding names are in a given relation.  Twins do the same in environments that take
corresponding names to the same variable.
-/

namespace ActorLang

open Kernel (Ident Operand Stmt BinaryPrim)
open List
open Exec (SameName Aligned Congruent Follow)

/-! ### Names -/

/-- What corresponds in the scope of names. -/
def Pairing.under (names : List Ident) (N : Pairing) : Pairing := fun x y =>
  x = y ∧ x ∈ names ∨ x ∉ names ∧ y ∉ names ∧ N x y

/-- Everything is in view, and any name may be missing. -/
abbrev View.any : View := .all fun _ => True

/-- Corresponding names stand for the same variable, and both or neither are the result of the program. -/
def Pairing.Fits (N : Pairing) (env env' : Env) : Prop :=
  ∀ x y, N x y → SameName .any env env' x y

variable {N : Pairing} {env env' : Env} {names : List Ident} {stmts stmts' : List Stmt}
  {arg arg' : Operand} {label : Option Operand}
  {body s s' body' : Stmt} {frame frame' : Frame} {caught x : Ident} {next next' : Next}
  {σ : Session} {rest rest' stack stack' : Stack} {m m' : Machine}

theorem Pairing.Fits.extend
    {captures : List (Ident × VarId)} (h : N.Fits env env') (hnames : ∀ x, x ∈ captures.map (·.1) ↔ x ∈ names) :
  (N.under names).Fits (env.extend captures) (env'.extend captures)
  := by
  rintro x y (⟨rfl, hx⟩ | ⟨hx, hy, hN⟩)
  · obtain ⟨v, -, hv⟩ := Env.lookup_extend_of_mem ((hnames x).mpr hx)
    exact ⟨.bound v (hv env) (hv env') trivial, Iff.rfl⟩
  · obtain ⟨hvar, hresult⟩ := h x y hN
    have hx' : (env.extend captures).lookup x = env.lookup x :=
      Env.lookup_extend_of_not_mem (mt (hnames x).mp hx)
    have hy' : (env'.extend captures).lookup y = env'.lookup y :=
      Env.lookup_extend_of_not_mem (mt (hnames y).mp hy)
    refine ⟨?_, hresult⟩
    cases hvar with
    | bound v hv hv' hview => exact .bound v (hx'.trans hv) (hy'.trans hv') hview
    | missing hname hv hv' => exact .missing hname (hx'.trans hv) (hy'.trans hv')

/-! ### Statements -/

/-- Whether a statement contains no statements that are executed with it. -/
def Kernel.Stmt.isFlat : Stmt → Bool
  | scope .. | seq .. | ifElse .. | cases .. | attempt .. => false
  | _ => true

/-- The statements are the same but for names that correspond. -/
inductive Twin : Pairing → Stmt → Stmt → Prop where
  | flat {N : Pairing} {s s' : Stmt} (hs : s.isFlat = true) (h : Congruent N (fun _ => True) s s') : Twin N s s'
  | scope {N : Pairing} {names : List Ident} {body body' : Stmt} (h : Twin (N.under names) body body') :
      Twin N (.scope names body) (.scope names body')
  | seq {N : Pairing} {stmts stmts' : List Stmt} (hlength : stmts.length = stmts'.length)
      (h : ∀ p ∈ stmts.zip stmts', Twin N p.1 p.2) : Twin N (.seq stmts) (.seq stmts')
  | ifElse {N cond cond' yes no yes' no'} (hcond : OperandTwin N cond cond')
      (hyes : Twin N yes yes') (hno : Twin N no no') :
      Twin N (.ifElse cond yes no) (.ifElse cond' yes' no')
  | cases {N arg arg' pattern yes no yes' no'} (harg : OperandTwin N arg arg')
      (hpinned : ∀ x ∈ pattern.pinned, N x x) (hyes : Twin (N.under pattern.captures) yes yes')
      (hno : Twin N no no') : Twin N (.cases arg pattern yes no) (.cases arg' pattern yes' no')
  | attempt {N caught body handler body' handler'} (hbody : Twin N body body')
      (hhandler : Twin (N.under [caught]) handler handler') :
      Twin N (.attempt body caught handler) (.attempt body' caught handler')

section Statements

theorem twin_seq (h : Forall₂ (Twin N) stmts stmts') :
  Twin N (.seq stmts) (.seq stmts')
  := by
  obtain ⟨hlength, hzip⟩ := forall₂_iff_zip.mp h
  exact .seq hlength fun p hp => hzip hp

/-! ### Execution -/

theorem Twin.aligned (h : Twin N s s') (hfits : N.Fits env env') :
  Aligned .any (fun _ => True) env env' s s'
  := by
  have hN {list list' : List Ident} : N.Narrows (SameName .any env env') list list' := fun x _ y _ => hfits x y
  cases h with
  | flat _ h => exact h.narrow hN
  | scope => exact .scope _ _ _
  | seq => exact .seq _ _
  | ifElse hcond => exact .ifElse (hcond.narrow hN) _ _ _ _
  | cases harg hpinned => exact .cases (harg.narrow hN) (fun x hx => hfits x x (hpinned x hx)) _ _ _ _
  | attempt => exact .attempt _ _ _ _ _

end Statements

/-! ### Stacks -/

/-- The frames are the same, or are to execute twins, or declare a variable for twins under two names. -/
inductive FrameTwin : Frame → Frame → Prop where
  | refl (frame : Frame) : FrameTwin frame frame
  | declare {N : Pairing} {x y : Ident} {body body' : Stmt} {env env' : Env} (h : Twin N body body')
      (hfits : ∀ v, N.Fits (env.extend [(x, v)]) (env'.extend [(y, v)])) :
      FrameTwin (.stmt (.scope [x] body) env) (.stmt (.scope [y] body') env')
  | stmt {N : Pairing} {s s' : Stmt} {env env' : Env} (h : Twin N s s') (hfits : N.Fits env env') :
      FrameTwin (.stmt s env) (.stmt s' env')
  | handler {N : Pairing} {caught : Ident} {s s' : Stmt} {env env' : Env}
      (h : Twin (N.under [caught]) s s') (hfits : N.Fits env env') :
      FrameTwin (.handler caught s env) (.handler caught s' env')

abbrev StackTwin : Stack → Stack → Prop := Forall₂ FrameTwin

section Stacks

theorem FrameTwin.catch? (h : FrameTwin frame frame') :
  frame'.catch? = frame.catch?
  := by
  cases h with
  | refl | declare | handler => rfl
  | stmt h =>
    cases h with
    | flat _ h => cases h <;> rfl
    | _ => rfl

theorem FrameTwin.push (h : FrameTwin (.stmt s env) (.stmt s' env')) (hstack : StackTwin stack stack') :
  StackTwin (stack.push s env) (stack'.push s' env')
  := by
  cases hstack with
  | nil => simpa [Stack.push] using h
  | cons hfirst hrest =>
    rw [Stack.push_cons, Stack.push_cons, h.catch?, hfirst.catch?]
    split
    · exact .cons hfirst hrest
    · exact .cons h (.cons hfirst hrest)

theorem StackTwin.unwindTo (h : StackTwin stack stack') (label : Nat) :
  Option.Rel StackTwin (stack.unwindTo label) (stack'.unwindTo label)
  := by
  induction h with
  | nil => exact .none
  | cons hfirst hrest ih =>
    rw [Stack.unwindTo_cons, Stack.unwindTo_cons, hfirst.catch?]
    split
    · exact .some hrest
    · exact ih

/-- The handlers that are found on stacks of twins. -/
inductive HandlerTwin : Ident × Stmt × Env × Stack → Ident × Stmt × Env × Stack → Prop where
  | found {caught : Ident} {s s' : Stmt} {env env' : Env} {below below' : Stack}
      (h : FrameTwin (.handler caught s env) (.handler caught s' env')) (hbelow : StackTwin below below') :
      HandlerTwin (caught, s, env, below) (caught, s', env', below')

theorem StackTwin.handlerBelow (h : StackTwin stack stack') :
  Option.Rel HandlerTwin (Machine.handlerBelow stack) (Machine.handlerBelow stack')
  := by
  induction h with
  | nil => exact .none
  | @cons frame _ _ _ hfirst hrest ih =>
    cases hfirst with
    | refl =>
      cases frame with
      | stmt => exact ih
      | handler => exact .some (.found (.refl _) hrest)
    | declare | stmt => exact ih
    | handler h hfits => exact .some (.found (.handler h hfits) hrest)

theorem FrameTwin.entered (h : FrameTwin (.handler caught s env) (.handler caught s' env')) (v : VarId) :
  FrameTwin (.stmt s (env.extend [(caught, v)])) (.stmt s' (env'.extend [(caught, v)]))
  := by
  cases h with
  | refl => exact .refl _
  | handler h hfits => exact .stmt h (hfits.extend fun x => Iff.rfl)

inductive NextTwin : Next → Next → Prop where
  | refl (next : Next) : NextTwin next next
  | enter {s s' : Stmt} {env env' : Env} (h : FrameTwin (.stmt s env) (.stmt s' env')) :
      NextTwin (.enter s env) (.enter s' env')
  | enterAll {stmts stmts' : List Stmt} {env env' : Env}
      (h : Forall₂ (fun s s' => FrameTwin (.stmt s env) (.stmt s' env')) stmts stmts') :
      NextTwin (.enterAll stmts env) (.enterAll stmts' env')
  | guarded {body body' : Stmt} {caught : Ident} {handler handler' : Stmt} {env env' : Env}
      (hbody : FrameTwin (.stmt body env) (.stmt body' env'))
      (hhandler : FrameTwin (.handler caught handler env) (.handler caught handler' env')) :
      NextTwin (.guarded body caught handler env) (.guarded body' caught handler' env')

theorem Twin.follow (h : Twin N s s') (hfits : N.Fits env env')
    (hnext : Follow .any (fun _ => True) env env' s s' next next') :
  NextTwin next next'
  := by
  cases h with
  | scope hbody =>
    cases hnext with
    | quiet h => cases h
    | scope hvars => exact .enter (.stmt hbody (hfits.extend hvars.names))
  | seq hlength hstmts =>
    cases hnext with
    | quiet h => cases h
    | seq => exact .enterAll (forall₂_iff_zip.mpr ⟨hlength, fun hp => .stmt (hstmts _ hp) hfits⟩)
  | ifElse _ hyes hno =>
    cases hnext with
    | quiet h => cases h
    | yes => exact .enter (.stmt hyes hfits)
    | no => exact .enter (.stmt hno hfits)
  | cases _ _ hyes hno =>
    cases hnext with
    | quiet h => cases h
    | matched hcaptures => exact .enter (.stmt hyes (hfits.extend hcaptures.names))
    | unmatched => exact .enter (.stmt hno hfits)
  | attempt hbody hhandler =>
    cases hnext with
    | quiet h => cases h
    | attempt => exact .guarded (.stmt hbody hfits) (.handler hhandler hfits)
  | flat hs => cases hnext <;> first | exact .refl _ | cases hs

theorem NextTwin.onStack (h : NextTwin next next') (hstack : StackTwin stack stack') :
  (∃ above above', next.onStack stack = .ok above ∧ next'.onStack stack' = .ok above' ∧ StackTwin above above') ∨
    ∃ f, next.onStack stack = .error f ∧ next'.onStack stack' = .error f
  := by
  have hall {stmts stmts' : List Stmt} {env env' : Env}
      (h : Forall₂ (fun s s' => FrameTwin (.stmt s env) (.stmt s' env')) stmts stmts') :
      StackTwin (stmts.foldr (fun s stack => stack.push s env) stack)
        (stmts'.foldr (fun s stack => stack.push s env') stack') := by
    induction h with
    | nil => exact hstack
    | cons hfirst _ ih => exact hfirst.push ih
  cases h with
  | enter h => exact .inl ⟨_, _, rfl, rfl, h.push hstack⟩
  | enterAll h => exact .inl ⟨_, _, rfl, rfl, hall h⟩
  | guarded hbody hhandler => exact .inl ⟨_, _, rfl, rfl, hbody.push (.cons hhandler hstack)⟩
  | refl next =>
    cases next with
    | rest => exact .inl ⟨_, _, rfl, rfl, hstack⟩
    | enter => exact .inl ⟨_, _, rfl, rfl, (FrameTwin.refl _).push hstack⟩
    | enterAll =>
      exact .inl ⟨_, _, rfl, rfl, hall (forall₂_same.mpr fun s _ => .refl _)⟩
    | guarded =>
      exact .inl ⟨_, _, rfl, rfl, (FrameTwin.refl _).push (.cons (.refl _) hstack)⟩
    | jump label =>
      rw [Next.onStack, Next.onStack]
      have hunwind := hstack.unwindTo label
      generalize stack.unwindTo label = below at hunwind ⊢
      generalize stack'.unwindTo label = below' at hunwind ⊢
      cases hunwind with
      | none => exact .inr ⟨_, rfl, rfl⟩
      | some hbelow => exact .inl ⟨_, _, rfl, rfl, hbelow⟩

end Stacks

/-! ### Steps -/

/-- The second of two sessions is the first with a stack of twins. -/
inductive SessionTwin : Session → Session → Prop where
  | withStack (σ : Session) {stack} (h : StackTwin σ.stack stack) :
      SessionTwin σ (σ.withStack stack)

structure StepTwin (r r' : Option Outcome × Session) : Prop where
  outcome : r'.1 = r.1
  session : SessionTwin r.2 r'.2

theorem Session.step_scope (h : σ.stack = .stmt (.scope [x] body) env :: rest) (hlimit : ¬ σ.Limited) :
  σ.step = (none, { σ with machine := { σ.machine with
    store := σ.store.newVar.2
    steps := σ.steps + 1
    stack := rest.push body (env.extend [(x, σ.store.newVar.1)]) } })
  := by
  have hexec : σ.Executes (.scope [x] body) env rest _ _ := ⟨h, hlimit, rfl⟩
  exact hexec.step_ok

namespace SessionTwin

variable {σ σ' : Session}

section

variable (h : StackTwin σ.stack stack)

include h

theorem unwind (value : Value) :
  StepTwin ((σ.unwind value).1, { σ with machine := (σ.unwind value).2 })
    (((σ.withStack stack).unwind value).1, { σ with machine := ((σ.withStack stack).unwind value).2 })
  := by
  have hfound := h.handlerBelow
  generalize hbelow : Machine.handlerBelow σ.stack = found at hfound
  generalize hbelow' : Machine.handlerBelow stack = found' at hfound
  cases hfound with
  | none =>
    rw [Machine.unwind_of_handlerBelow_none hbelow, Machine.unwind_of_handlerBelow_none hbelow']
    exact ⟨rfl, .withStack _ .nil⟩
  | some hhandler =>
    obtain ⟨hhandler, hrest⟩ := hhandler
    rw [Machine.unwind_of_handlerBelow hbelow, Machine.unwind_of_handlerBelow hbelow']
    exact ⟨rfl, .withStack _ ((hhandler.entered _).push hrest)⟩

theorem raise (f : Fault) :
  StepTwin (σ.raise f) ((σ.withStack stack).raise f)
  := unwind (σ := { σ with machine := (σ.faultValue f).2 }) h (σ.faultValue f).1

theorem proceed (hnext : NextTwin next next') :
  StepTwin (σ.proceed next) ((σ.withStack stack).proceed next')
  := by
  rw [Session.proceed, Session.proceed]
  rcases hnext.onStack h with ⟨above, _, hon, hon', habove⟩ | ⟨f, hon, hon'⟩
  · rw [hon, show next'.onStack (σ.withStack stack).stack = _ from hon']
    exact ⟨rfl, .withStack (σ.withStack above) habove⟩
  · rw [hon, show next'.onStack (σ.withStack stack).stack = _ from hon']
    exact raise (σ := σ.withStack []) .nil f

theorem interrupt (hframe : FrameTwin frame frame') (e : Interrupt) :
  StepTwin (σ.interrupt frame e) ((σ.withStack stack).interrupt frame' e)
  := by
  cases e with
  | suspend => exact ⟨rfl, .withStack (σ.withStack _) (.cons hframe h)⟩
  | throw value => exact unwind h value
  | fault f => exact raise h f

end

theorem exhausted (h : σ.stack = .stmt s env :: rest) (hlimit : σ.Limited) :
  StepTwin σ.step (σ.withStack (.stmt s' env' :: rest')).step
  := by
  have hlimit' : (σ.withStack (.stmt s' env' :: rest')).Limited := hlimit
  rw [Session.step_limit h hlimit, Session.step_limit rfl hlimit']
  exact ⟨rfl, .withStack σ.exhausted.2 .nil⟩

theorem execute (h : σ.stack = .stmt s env :: rest) (hframe : FrameTwin (.stmt s env) (.stmt s' env'))
    (haligned : Aligned .any (fun _ => True) env env' s s')
    (hfollow : ∀ next next', Follow .any (fun _ => True) env env' s s' next next' → NextTwin next next')
    (hrest : StackTwin rest rest') :
  StepTwin σ.step (σ.withStack (.stmt s' env' :: rest')).step
  := by
  by_cases hlimit : σ.Limited
  · exact exhausted h hlimit
  obtain ⟨r, σ₁, W, hrun, -, -, hgrown, hends⟩ := (Exec.agree_stmt haligned (σ.popped rest)
    (Session.tame_all _ _).lax { (σ.popped rest).scene with stack := rest' } ⟨fun _ => rfl, .refl _ _⟩).resolve_left
    (·.2.1 trivial)
  obtain rfl := View.eq_all hgrown.store.le
  obtain ⟨r', _, hrun', hw, hr⟩ := hends.exists_alike trivial
  obtain rfl := hw.eq (fun _ => trivial) trivial trivial
  have hstack : StackTwin σ₁.stack rest' := by
    rw [hgrown.stack]
    exact hrest
  have hexec : σ.Executes s env rest r σ₁ := ⟨h, hlimit, hrun⟩
  have hexec' : (σ.withStack (.stmt s' env' :: rest')).Executes s' env' rest' r' (σ₁.withStack rest') :=
    ⟨rfl, hlimit, hrun'.trans (congrArg (Prod.mk r') (hgrown.within_eq rest'))⟩
  cases hr with
  | ok hnext =>
    rw [hexec.step_ok, hexec'.step_ok]
    exact proceed hstack (hfollow _ _ hnext)
  | error he _ =>
    rw [hexec.step_error, hexec'.step_error]
    exact interrupt hstack hframe _

theorem declare {y : Ident} {body' : Stmt}
    (h : σ.stack = .stmt (.scope [x] body) env :: rest) (hbody : Twin N body body')
    (hfits : ∀ v, N.Fits (env.extend [(x, v)]) (env'.extend [(y, v)])) (hrest : StackTwin rest rest') :
  StepTwin σ.step (σ.withStack (.stmt (.scope [y] body') env' :: rest')).step
  := by
  by_cases hlimit : σ.Limited
  · exact exhausted h hlimit
  have hlimit' : ¬ (σ.withStack (.stmt (.scope [y] body') env' :: rest')).Limited := hlimit
  rw [Session.step_scope h hlimit, Session.step_scope rfl hlimit']
  exact ⟨rfl, .withStack _ ((FrameTwin.stmt hbody (hfits _)).push hrest)⟩

theorem leave (h : σ.stack = .handler caught s env :: rest) (hrest : StackTwin rest rest') :
  StepTwin σ.step (σ.withStack (.handler caught s' env' :: rest')).step
  := by
  rw [Session.step_leave h]
  exact ⟨rfl, .withStack (σ.withStack rest) hrest⟩

theorem step (h : SessionTwin σ σ') :
  StepTwin σ.step σ'.step
  := by
  cases h with
  | withStack hstack =>
    generalize hframes : σ.stack = frames at hstack
    cases hstack with
    | nil =>
      rw [Session.step_done hframes]
      refine ⟨rfl, .withStack σ ?_⟩
      rw [hframes]
      exact .nil
    | @cons frame _ _ _ hfirst hrest =>
      cases hfirst with
      | refl =>
        cases frame with
        | stmt s env =>
          refine execute hframes (.refl _) (Exec.aligned_all env s) (fun _ _ hnext => ?_) hrest
          cases hnext <;> exact .refl _
        | handler => exact leave hframes hrest
      | declare h hfits => exact declare hframes h hfits hrest
      | stmt h hfits =>
        exact execute hframes (.stmt h hfits) (h.aligned hfits) (fun _ _ => h.follow hfits) hrest
      | handler => exact leave hframes hrest

theorem continueRun (h : SessionTwin σ σ') (fuel : Nat) :
  StepTwin (σ.continueRun fuel) (σ'.continueRun fuel)
  := by
  induction fuel generalizing σ σ' with
  | zero => exact ⟨rfl, h⟩
  | succ _ ih =>
    rw [Session.continueRun, Session.continueRun]
    have hstep := h.step
    generalize σ.step = r at hstep ⊢
    generalize σ'.step = r' at hstep ⊢
    obtain ⟨outcome, _⟩ := r
    obtain ⟨_, _⟩ := r'
    obtain ⟨houtcome, hsession⟩ := hstep
    cases houtcome
    cases outcome with
    | none => exact ih hsession
    | some => exact ⟨rfl, hsession⟩

end SessionTwin

/-! ### Programs -/

/-- The second of two machines is the first with a stack of twins. -/
inductive MachineTwin : Machine → Machine → Prop where
  | withStack (m : Machine) {stack} (h : StackTwin m.stack stack) : MachineTwin m { m with stack }

theorem MachineTwin.session (h : MachineTwin m m') (w : World) :
  SessionTwin ⟨m, w⟩ ⟨m', w⟩
  := by
  cases h with
  | withStack hstack => exact .withStack ⟨m, w⟩ hstack

theorem MachineTwin.restart (h : MachineTwin m m') :
  MachineTwin { m with steps := 0 } { m' with steps := 0 }
  := by
  cases h with
  | withStack hstack => exact .withStack { m with steps := 0 } hstack

theorem MachineTwin.evaluation (h : MachineTwin m m') (result : VarId) (outcome : Outcome) :
  m'.evaluation result outcome = m.evaluation result outcome
  := by
  cases h
  cases outcome <;> rfl

section Declaring

variable {x y : Ident}

section

variable (h : Twin N body body') (hfits : ∀ (env : Env) v, N.Fits (env.extend [(x, v)]) (env.extend [(y, v)]))

include h hfits

theorem Twin.load (m : Machine) :
  (m.load (.scope [x] body)).1 = (m.load (.scope [y] body')).1 ∧
    MachineTwin (m.load (.scope [x] body)).2 (m.load (.scope [y] body')).2
  := by
  have hstack : StackTwin m.stack m.stack := forall₂_same.mpr fun _ _ => .refl _
  exact ⟨rfl, .withStack _ ((FrameTwin.declare h (hfits _)).push hstack)⟩

/-- Programs that declare one variable under two names come to the same end. -/
theorem Twin.evaluate (fuel maxSteps : Nat) :
  evaluate fuel (.scope [x] body) maxSteps = evaluate fuel (.scope [y] body') maxSteps
  := by
  have hload := h.load hfits (Machine.create maxSteps none)
  rw [ActorLang.evaluate, ActorLang.evaluate]
  generalize Machine.load _ _ = loaded at hload ⊢
  generalize Machine.load _ _ = loaded' at hload ⊢
  obtain ⟨result, m⟩ := loaded
  obtain ⟨_, m'⟩ := loaded'
  obtain ⟨hresult, hm⟩ := hload
  cases hresult
  have hrun : StepTwin (Session.run fuel ⟨m, {}⟩) (Session.run fuel ⟨m', {}⟩) :=
    (hm.restart.session {}).continueRun fuel
  dsimp only
  generalize Session.run _ _ = r at hrun ⊢
  generalize Session.run _ _ = r' at hrun ⊢
  obtain ⟨outcome, _⟩ := r
  obtain ⟨_, _⟩ := r'
  obtain ⟨houtcome, hσ⟩ := hrun
  cases houtcome
  cases outcome with
  | none => rfl
  | some outcome =>
    cases hσ with
    | withStack hstack => exact congrArg some ((MachineTwin.withStack _ hstack).evaluation result outcome).symm

end

end Declaring

end ActorLang
