import Mathlib
import ActorLang.Proofs.Machine.Statements

/-!
# Names are always found

A statement that is executed in an environment with its free names never misses a name, and neither
does a procedure that comes of it, applied much later, or by another machine.  The invariant: every
frame on the stack has the free names of its statement in its environment, and every closure,
wherever it is kept, those of its body among its parameters and what it has captured.
-/

namespace ActorLang

open Kernel (Ident Stmt)
open List
open Exec (Aligned Follow Applied Capturing SameVar)

variable {env bindings : Env}

/-- The free names of the body are parameters or captured. -/
def Definition.Scoped (d : Definition) : Prop :=
  ∀ x ∈ d.body.occurrences, x ∈ d.params ∨ x ∈ d.captured

def Env.Binds (env : Env) (names : List Ident) : Prop := ∀ x ∈ names, (env.lookup x).isSome

/-- The environment of the frame has the free names of its statement. -/
def Frame.Covered : Frame → Prop
  | .stmt s env => env.Binds s.occurrences
  | .handler caught s env => env.Binds (s.occurrences.filter (· != caught))

variable {names needed more : List Ident} {args : List VarId} {next : Next} {s : Stmt} {σ' σ : Session}

theorem Env.Binds.extend (h : env.Binds (needed.filter (!names.contains ·)))
    (hnames : ∀ x ∈ names, x ∈ bindings.map (·.1)) :
  (env.extend bindings).Binds needed
  := by
  intro x hx
  by_cases hbound : x ∈ bindings.map (·.1)
  · obtain ⟨v, -, hv⟩ := Env.lookup_extend_of_mem hbound
    rw [hv env]
    rfl
  · rw [Env.lookup_extend_of_not_mem hbound]
    refine h x (mem_filter.mpr ⟨hx, ?_⟩)
    simpa using fun hmem => hbound (hnames x hmem)

theorem Env.Binds.append :
  env.Binds (names ++ more) ↔ env.Binds names ∧ env.Binds more
  := forall_mem_append

theorem Env.binds_args {proc : Ident} {p : VarId} (hlength : names.length = args.length) :
  (Env.extend [] ((proc, p) :: names.zip args)).Binds (Stmt.apply (.ident proc) (names.map .ident)).occurrences
  := by
  intro x hx
  have hmem : x ∈ ((proc, p) :: names.zip args).map (·.1) := by
    rw [map_cons, map_fst_zip (Nat.le_of_eq hlength)]
    simpa [Stmt.occurrences, Kernel.operandIdents, Kernel.Operand.idents] using hx
  obtain ⟨v, -, hv⟩ := Env.lookup_extend_of_mem hmem
  rw [hv]
  rfl

theorem Closure.binds_params {c : Closure} (h : c.definition.Scoped) (hlength : c.params.length = args.length) :
  (Env.extend [] (c.env ++ c.params.zip args)).Binds c.body.occurrences
  := by
  intro x hx
  have hmem : x ∈ (c.env ++ c.params.zip args).map (·.1) := by
    rw [map_append, map_fst_zip (Nat.le_of_eq hlength), mem_append]
    exact (h x hx).symm
  obtain ⟨v, -, hv⟩ := Env.lookup_extend_of_mem hmem
  rw [hv]
  rfl

theorem Exec.Applied.covered (h : Applied .full Definition.Scoped next) :
  ∀ frame ∈ next.frames, frame.Covered
  := by
  cases h with
  | rest => exact forall_mem_nil _
  | enter hc _ hlength =>
    exact forall_mem_singleton.mpr (Closure.binds_params hc.definition hlength)

theorem Kernel.Stmt.mem_listOccurrences {stmts : List Stmt} (hs : s ∈ stmts) :
  s.occurrences ⊆ Stmt.listOccurrences stmts
  := by
  induction stmts with
  | nil => cases hs
  | cons t _ ih =>
    rcases mem_cons.mp hs with rfl | hs
    · exact subset_append_left _ _
    · exact subset_append_of_subset_right _ (ih hs)

/-- What comes next of a statement whose free names are there has its free names. -/
theorem Exec.Follow.covered (h : Follow .full Definition.Scoped env env s s next next) (hs : env.Binds s.occurrences) :
  ∀ frame ∈ next.frames, frame.Covered
  := by
  cases h with
  | quiet | jump => exact forall_mem_nil _
  | apply h | selectApply h => exact h.covered
  | scope h =>
    exact forall_mem_singleton.mpr (hs.extend fun x hx => (h.names x).mpr hx)
  | seq =>
    intro _ hframe
    obtain ⟨t, ht, rfl⟩ := mem_map.mp hframe
    exact fun x hx => hs x (Stmt.mem_listOccurrences ht hx)
  | yes =>
    obtain ⟨hfirst, -⟩ := Env.Binds.append.mp hs
    exact forall_mem_singleton.mpr (Env.Binds.append.mp hfirst).2
  | no | unmatched => exact forall_mem_singleton.mpr (Env.Binds.append.mp hs).2
  | matched h =>
    obtain ⟨hfirst, -⟩ := Env.Binds.append.mp hs
    obtain ⟨-, hyes⟩ := Env.Binds.append.mp hfirst
    exact forall_mem_singleton.mpr (hyes.extend fun x hx => (h.names x).mpr hx)
  | attempt =>
    obtain ⟨hbody, hhandler⟩ := Env.Binds.append.mp hs
    exact forall_mem_cons.mpr ⟨hbody, forall_mem_singleton.mpr hhandler⟩

theorem Frame.Covered.caught {caught : Ident} (v : VarId) (h : (Frame.handler caught s env).Covered) :
  (Frame.stmt s (env.extend [(caught, v)])).Covered
  := by
  have hneeded : env.Binds (s.occurrences.filter (! [caught].contains ·)) := by
    simpa [Frame.Covered, bne, ← Bool.beq_eq_decide_eq] using h
  exact hneeded.extend (by simp)

/-! ### Stores -/

namespace Store

/-- The closures that the operation brings into the store obey the condition. -/
def Operation.Obeys (C : Definition → Prop) : Operation → Prop
  | newClosure c => C c.definition
  | importValue p => p.Tame C
  | _ => True

theorem Tame.run {C : Definition → Prop} {s : Store} (h : s.Tame .full C) (op : Operation) (hop : op.Obeys C) :
  (op.run s).Tame .full C
  := by
  have hnew {t : Store} {P : View → Prop} (ht : ∃ W, t.Tame W C ∧ Grown .full W s t ∧ P W) :
      t.Tame .full C := by
    obtain ⟨W, htame, hgrown, -⟩ := ht
    exact View.eq_full hgrown.le ▸ htame
  cases op with
  | newVar => exact hnew h.newVar
  | newBound v => exact hnew (h.newBound v.in_all)
  | newRecord => exact (h.newRecord fun f _ => f.2.in_all).1
  | newClosure => exact hnew (h.newClosure ⟨hop, fun _ _ => trivial⟩)
  | newCfg => exact hnew (h.newCfg trivial fun _ _ => trivial)
  | newCell content => exact (h.newCell content content.in_all).1
  | setCell id content => exact (h.setCell id content.in_all).1
  | unify left right => exact (h.unify left.in_all right.in_all).1
  | importValue => exact hnew (h.importValue hop)

end Store

/-! ### Sessions -/

namespace Session

/-- No name is missing, now or later. -/
structure Scoped (σ : Session) : Prop where
  tame : σ.Tame .full Definition.Scoped
  covered : ∀ frame ∈ σ.stack, frame.Covered

theorem Scoped.executed (h : σ.Scoped) {rest : Stack} (hstack : σ.stack = .stmt s env :: rest) :
  ∃ r σ', (Exec.stmt env s).run (σ.popped rest) = (r, σ') ∧ σ'.Tame .full Definition.Scoped ∧ σ'.stack = rest ∧
    (∀ next, r = .ok next → ∀ frame ∈ next.frames, frame.Covered) ∧
    ∀ e, r = .error e → e.Tame .full
  := by
  have hs : env.Binds s.occurrences := h.covered (.stmt s env) (by simp [hstack])
  have haligned : Aligned .full Definition.Scoped env env s s := by
    apply Exec.aligned_self
    · intro x hx
      obtain ⟨v, hv⟩ := Option.isSome_iff_exists.mp (hs x (s.reads_subset hx))
      exact .bound v hv hv trivial
    · intro params _ _ x hx
      by_cases hparam : x ∈ params
      · exact .inl hparam
      · refine .inr (mem_eraseDups.mpr (mem_filter.mpr ⟨hx, ?_⟩))
        simpa using hparam
  obtain ⟨r, σ', W, hrun, hσ', hgrown, hnext, herror⟩ := haligned.execute trivial (h.tame.popped rest).lax
  obtain rfl := View.eq_full hgrown.store.le
  exact ⟨r, σ', hrun, hσ'.tame, hgrown.stack, fun next hr => (hnext next hr).covered hs, fun e he => (herror e he).1⟩

theorem Scoped.unwind (h : σ.Scoped) (value : Value) :
  (Session.mk (σ.unwind value).2 σ.world).Scoped
  := by
  obtain ⟨W, htame, hgrown⟩ := h.tame.machine.unwind value.in_all
  refine ⟨⟨View.eq_full hgrown.le ▸ htame, h.tame.world⟩, ?_⟩
  exact Machine.forall_unwind h.covered fun _ _ _ v hframe => hframe.caught v

theorem Scoped.raise (h : σ.Scoped) (f : Fault) :
  (σ.raise f).2.Scoped
  := by
  have hfault : (Session.mk (σ.faultValue f).2 σ.world).Scoped :=
    ⟨⟨(h.tame.machine.faultValue f).1, h.tame.world⟩, h.covered⟩
  exact hfault.unwind (σ.faultValue f).1

theorem Scoped.withStack (h : σ.Scoped) {stack : Stack} (hstack : ∀ frame ∈ stack, frame.Covered) :
  (σ.withStack stack).Scoped
  := ⟨⟨h.tame.machine.withStack stack, h.tame.world⟩, hstack⟩

theorem Scoped.stepped (h : σ.Scoped) {r : Option Outcome × Session} (hr : Stepped σ r) :
  r.2.Scoped
  := by
  have hrest {frame : Frame} {rest : Stack} (hstack : σ.stack = frame :: rest) :
      ∀ frame ∈ rest, frame.Covered :=
    fun frame hframe => h.covered frame (hstack ▸ mem_cons_of_mem _ hframe)
  cases hr with
  | done => exact h
  | leave hstack => exact h.withStack (hrest hstack)
  | limit => exact ⟨h.tame.exhausted.1, forall_mem_nil _⟩
  | @proceed s _ _ next σ' hstack _ hrun =>
    obtain ⟨_, _, hrun', htame, hrest', hnext, -⟩ := h.executed hstack
    cases hrun.symm.trans hrun'
    have hσ' : σ'.Scoped := ⟨htame, hrest' ▸ hrest hstack⟩
    rw [Session.proceed]
    split
    next stack hon => exact hσ'.withStack (Next.forall_onStack hσ'.covered (hnext next rfl) hon)
    next f hon => exact (hσ'.withStack (forall_mem_nil _)).raise f
  | @interrupt s env _ e σ' hstack _ hrun =>
    obtain ⟨_, _, hrun', htame, hrest', -, -⟩ := h.executed hstack
    cases hrun.symm.trans hrun'
    have hσ' : σ'.Scoped := ⟨htame, hrest' ▸ hrest hstack⟩
    cases e with
    | suspend =>
      have hframe : (Frame.stmt s env).Covered := h.covered _ (by simp [hstack])
      exact hσ'.withStack (forall_mem_cons.mpr ⟨hframe, hσ'.covered⟩)
    | throw value => exact hσ'.unwind value
    | fault f => exact hσ'.raise f

theorem Scoped.fault? (h : σ.Scoped) (name : Ident) :
  σ.fault? ≠ some (.identNotFound name)
  := by
  intro hfault
  rcases fault?_eq_some hfault with hlimit | ⟨s, _, _, _, hstack, hcause⟩
  · cases hlimit
  · obtain ⟨_, _, hrun, -, -, -, herror⟩ := h.executed hstack
    rcases hcause with ⟨_, -, hon⟩ | hthrown
    · obtain ⟨_, -, hjump, -⟩ := Next.onStack_error hon
      cases hjump
    · cases hthrown.symm.trans hrun
      cases herror _ rfl

/-! ### Runs -/

/-- What can happen to a machine: it takes a step, or its host does something to it, or another
machine to what they share.  Closures that come from elsewhere have what they need. -/
inductive Event (σ : Session) : Session → Prop where
  | step : Event σ σ.step.2
  | startRun : Event σ σ.startRun
  | world (w : World) (h : w.Tame Definition.Scoped) : Event σ { σ with world := w }
  | store (op : Store.Operation) (h : op.Obeys Definition.Scoped) :
      Event σ (σ.withStore (op.run σ.store))
  | respond (id : Nat) (p : Portable) (h : p.Tame Definition.Scoped) :
      Event σ { σ with machine := σ.respond id p }
  | push (s : Stmt) (env : Env) (h : env.Binds s.free) :
      Event σ { σ with machine := σ.push s env }
  | pushApply (proc : Value) (args : List VarId) :
      Event σ { σ with machine := σ.pushApply proc args }
  | abandon : Event σ { σ with machine := σ.abandon }
  | takeSpawns : Event σ { σ with spawns := [] }

theorem Scoped.push (h : σ.Scoped) (henv : env.Binds s.occurrences) :
  Scoped { σ with machine := σ.push s env }
  := ⟨⟨h.tame.machine.withStack _, h.tame.world⟩, Stack.forall_push h.covered henv⟩

theorem Scoped.event (h : σ.Scoped) (he : Event σ σ') :
  σ'.Scoped
  := by
  have hmachine := h.tame.machine
  cases he with
  | step => exact h.stepped σ.stepped_step
  | startRun =>
    exact ⟨⟨⟨hmachine.store, hmachine.pending, hmachine.spawns⟩, h.tame.world⟩, h.covered⟩
  | world w hw => exact ⟨⟨hmachine, hw⟩, h.covered⟩
  | store op hop =>
    have hstore := hmachine.store.run op hop
    exact ⟨⟨⟨hstore, hmachine.pending, hmachine.spawns⟩, h.tame.world⟩, h.covered⟩
  | respond id p hp =>
    obtain ⟨W, hreceived⟩ := hmachine.respond id hp
    refine ⟨⟨View.eq_full hreceived.grown.le ▸ hreceived.tame, h.tame.world⟩, ?_⟩
    rcases hreceived.stack with hstack | ⟨v, -, hstack⟩
    · rw [hstack]
      exact h.covered
    · rw [hstack]
      exact Stack.forall_push h.covered (forall_mem_singleton.mpr rfl)
  | push s _ henv => exact h.push fun x hx => henv x (mem_eraseDups.mpr hx)
  | pushApply proc =>
    have hproc := hmachine.store.run (.newBound proc) trivial
    have hmachine := hmachine.withStore hproc (View.le_refl _)
    refine push (σ := ⟨_, σ.world⟩) ⟨⟨hmachine, h.tame.world⟩, h.covered⟩ ?_
    exact Env.binds_args (by simp)
  | abandon =>
    exact ⟨⟨⟨hmachine.store, forall_mem_nil _, hmachine.spawns⟩, h.tame.world⟩, forall_mem_nil _⟩
  | takeSpawns =>
    exact ⟨⟨⟨hmachine.store, hmachine.pending, forall_mem_nil _⟩, h.tame.world⟩, h.covered⟩

theorem Scoped.run (h : σ.Scoped) (hrun : Relation.ReflTransGen Event σ σ') :
  σ'.Scoped
  := by
  induction hrun with
  | refl => exact h
  | tail _ he ih => exact ih.event he

theorem events_continueRun (fuel : Nat) (σ : Session) :
  Relation.ReflTransGen Event σ (σ.continueRun fuel).2
  := by
  fun_induction continueRun fuel σ with
  | case1 => exact .refl
  | case2 _ σ σ' hstep ih =>
    have hevent : Event σ σ' := by
      have h := Event.step (σ := σ)
      rwa [hstep] at h
    exact .head hevent ih
  | case3 _ σ _ σ' hstep =>
    have h := Event.step (σ := σ)
    rw [hstep] at h
    exact .single h

/-- Let the environment of a statement have its free names, on any machine.  Then whatever happens
to the machine, it never misses a name. -/
theorem lookup_never_fails {σ σ' : Session} {s : Stmt} {env : Env}
    (htame : σ.Tame .full Definition.Scoped) (hidle : σ.stack = [])
    (henv : env.Binds s.free)
    (hrun : Relation.ReflTransGen Event { σ with machine := σ.push s env } σ')
    (name : Ident) :
  σ'.fault? ≠ some (.identNotFound name)
  := by
  have hstart : σ.Scoped := ⟨htame, hidle ▸ forall_mem_nil _⟩
  have hpushed := hstart.push fun x hx => henv x (mem_eraseDups.mpr hx)
  exact (hpushed.run hrun).fault? name

/-- A statement that creates a procedure, and applies it in a handler before the name that it has
captured is bound. -/
def lateName : Stmt :=
  .scope ["f", "x"] (.seq [.createProc ["p"] (.binary .add (.ident "x") (.lit (.int32 1)) "p") "f",
      .attempt (.throw (.ident "x")) "e" (.apply (.ident "f") [.ident "out"])])

def withOutput : Session := ⟨((Machine.create 0 none).declare "out").2, {}⟩

def waiting : Option Outcome × Session :=
  run 20 { withOutput with machine := withOutput.push lateName withOutput.root }

def resumed : Session :=
  waiting.2.withStore ((Store.Operation.unify (.var 8) (.lit (.int32 41))).run waiting.2.store)

/-- The machine waits with the body of the procedure, and goes on when the name is bound. -/
theorem lookup_never_fails_resumed :
  waiting.1 = some (.suspend 8) ∧ resumed.fault? ≠ some (.identNotFound "x") ∧
  (resumed.run 20).1 = some .done ∧
  (resumed.run 20).2.store.resolve (.var 6) = .lit (.int32 42)
  := by
  refine ⟨by cbv, ?_, by cbv, by cbv⟩
  have htame : withOutput.Tame .full Definition.Scoped := by
    obtain ⟨W, hcreated, hgrown⟩ := Machine.ready_create (C := Definition.Scoped)
      (by simp [Definition.Scoped, Closure.definition, Stmt.occurrences]) .full 0 none
    obtain rfl := View.eq_full hgrown.le
    refine ⟨⟨hcreated.tame.store.run .newVar trivial, ?_, ?_⟩, ?_⟩
    · exact hcreated.tame.pending
    · exact hcreated.tame.spawns
    · simp [World.Tame, withOutput]
  have hbinds : withOutput.root.Binds lateName.free := by
    exact forall_mem_singleton.mpr (by cbv)
  have hwaiting : Relation.ReflTransGen Event { withOutput with
      machine := withOutput.push lateName withOutput.root } waiting.2 :=
    (events_continueRun 20 (startRun _)).head .startRun
  have hresumed : Event waiting.2 resumed :=
    .store (.unify (.var 8) (.lit (.int32 41))) trivial
  exact lookup_never_fails htame (by cbv) hbinds (hwaiting.tail hresumed) "x"

end Session

end ActorLang
