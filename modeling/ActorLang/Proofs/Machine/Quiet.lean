import ActorLang.Proofs.Machine.Scoping
import ActorLang.Proofs.Machine.Validity

/-!
# Steps that nobody notices

Some statements only prepare others: they declare a name, create a procedure, match a value, or
choose what comes next.  They add to the store, and nothing that was there changes.  `Quietly` says
that a machine gets somewhere in steps of this kind.
-/

namespace ActorLang

open Kernel (Ident Operand Stmt)
open List

variable {v : VarId} {c : Closure} {params names : List Ident} {body case : Stmt} {f : Ident}
  {t : Store} {env : Env} {rest stack : Stack} {σ : Session}

namespace Store

/-- Variables and procedures have been added to the store. -/
structure Adds (s t : Store) : Prop where
  slots : s.slots.toList <+: t.slots.toList
  procs : s.procs.toList <+: t.procs.toList
  rest : { t with slots := s.slots, procs := s.procs } = s

variable {s t u : Store}

theorem Adds.refl (s : Store) :
  s.Adds s
  := ⟨prefix_rfl, prefix_rfl, rfl⟩

theorem Adds.trans (h : s.Adds t) (h' : t.Adds u) :
  s.Adds u where
  slots := h.slots.trans h'.slots
  procs := h.procs.trans h'.procs
  rest := by rw [← h.rest, ← h'.rest]

theorem AddsVars.adds (h : s.AddsVars t) :
  s.Adds t
  := by
  have hprocs := congrArg Store.procs h.rest
  refine ⟨h.slots, ?_, ?_⟩
  · rw [← hprocs]
  · rw [← hprocs]
    exact h.rest

/-- The store with a new procedure, and a variable for it. -/
def withProcedure (s : Store) (c : Closure) : Store :=
  { s with
    slots := s.slots.push (.bound (.scalar (.proc (.closure s.procs.size))))
    procs := s.procs.push c }

theorem adds_withProcedure (s : Store) (c : Closure) :
  s.Adds (s.withProcedure c)
  := ⟨by simp [withProcedure], by simp [withProcedure], rfl⟩

/-- The variable stands for the closure. -/
def HoldsClosure (s : Store) (v : VarId) (c : Closure) : Prop :=
  ∃ id, s.resolve (.var v) = .datum (.scalar (.proc (.closure id))) ∧ s.procs[id]? = some c

theorem holdsClosure_withProcedure (s : Store) (c : Closure) :
  (s.withProcedure c).HoldsClosure s.slots.size c
  := by
  have hslot : (s.withProcedure c).slots[s.slots.size]? = some (.bound (.scalar (.proc (.closure s.procs.size)))) := by
    simp [withProcedure]
  refine ⟨s.procs.size, ?_, by simp [withProcedure]⟩
  exact resolve_of_bound hslot

theorem HoldsClosure.outlives (h : s.HoldsClosure v c) (hs : s.WellFormed)
    (hv : v < s.slots.size) (hle : t.Outlives s) :
  t.HoldsClosure v c
  := by
  obtain ⟨id, hresolve, hid⟩ := h
  exact ⟨id, hle.extendedBy.resolve_eq_datum hs hv hresolve, ContinuedBy.getElem?_eq hle.procs hid⟩

end Store

namespace Exec

theorem returns_capture (h : env.Binds names) (σ : Session) :
  ∃ bindings, (capture env names).Returns σ bindings σ ∧ bindings.map (·.1) = names ∧
    ∀ b ∈ bindings, env.lookup b.1 = some b.2
  := by
  induction names with
  | nil => exact ⟨[], returns_pure _ _, rfl, by simp⟩
  | cons name _ ih =>
    obtain ⟨hname, hrest⟩ := forall_mem_cons.mp h
    obtain ⟨v, hv⟩ := Option.isSome_iff_exists.mp hname
    obtain ⟨bindings, hreturns, hnames, hlookup⟩ := ih hrest
    refine ⟨(name, v) :: bindings, ?_, by rw [map_cons, hnames], forall_mem_cons.mpr ⟨hv, hlookup⟩⟩
    exact (returns_lookup hv σ).bind (hreturns.bind (returns_pure _ _))

theorem returns_createProc (hbinds : env.Binds (Stmt.captured params body)) (hf : env.lookup f = some v)
    (hv : σ.store.slots[v]? = some .unbound) :
  ∃ bindings, bindings.map (·.1) = Stmt.captured params body ∧ (∀ b ∈ bindings, env.lookup b.1 = some b.2) ∧
    (Exec.stmt env (.createProc params body f)).Returns σ .rest
      (σ.withStore ((σ.store.newClosure ⟨params, body, bindings⟩).2.setSlot v
        (.bound (.scalar (.proc (.closure σ.store.procs.size))))))
  := by
  obtain ⟨bindings, hreturns, hnames, hlookup⟩ := returns_capture hbinds σ
  refine ⟨bindings, hnames, hlookup, ?_⟩
  have hclosure : (newClosure env params body).Returns σ ⟨params, body, bindings⟩ σ :=
    hreturns.bind (returns_pure _ _)
  apply hclosure.bind
  apply (returns_lookup hf σ).bind
  refine Returns.bind (a := ()) ?_ (returns_pure _ _)
  apply (returns_onStore _ σ).bind
  apply (returns_onStore _ _).bind
  have hv' : (σ.store.newClosure ⟨params, body, bindings⟩).2.slots[v]? = some .unbound := hv
  rw [show (σ.withStore (σ.store.newClosure ⟨params, body, bindings⟩).2).store.unify (.var v)
      (.scalar (.proc (.closure (σ.store.newClosure ⟨params, body, bindings⟩).1))) = _ from
    Store.unify_unbound hv' _]
  exact returns_pure _ _

theorem returns_applyClosure {args : List Operand} {vars : List VarId}
    (hf : env.lookup f = some v) (hc : σ.store.HoldsClosure v c)
    (hlength : c.params.length = args.length) (hvars : (operandVars env args).Returns σ vars σ)
    (hsame : vars.length = args.length) :
  (Exec.stmt env (.apply (.ident f) args)).Returns σ (.enter c.body (Env.extend [] (c.env ++ c.params.zip vars))) σ
  := by
  obtain ⟨id, hresolve, hid⟩ := hc
  have hclosure : σ.store.closure id = c := by
    rw [Store.closure, Array.getD_eq_getD_getElem?, hid]
    rfl
  have harity : arity σ.store (.closure id) = args.length := by
    rw [arity, hclosure, hlength]
  have hargs : withoutResult args args.length = args := by
    rw [withoutResult, if_neg]
    omega
  apply ((returns_operand hf σ).bind (returns_determined hresolve)).bind
  apply (returns_withStore _ σ).bind
  rw [harity, hargs]
  apply hvars.bind
  apply (returns_withStore _ σ).bind
  rw [harity, hsame, if_neg (by simp)]
  apply (returns_withStore _ σ).bind
  rw [hclosure]
  exact returns_pure _ _

end Exec

namespace Session

/-- Only the store of the machine, its stack and the count of its steps have changed, and to the store things have
been added. -/
structure Undisturbed (σ τ : Session) : Prop where
  store : σ.store.Adds τ.store
  rest : τ = (σ.reframe τ.stack τ.steps).withStore τ.store

/-- The machine goes on, step by step. -/
def Goes : Session → Session → Prop := Relation.ReflTransGen fun σ τ => σ.step = (none, τ)

/-- The machine gets somewhere with the property, if its limit of steps lets it, and nothing has been disturbed since
it was in the first session. -/
def QuietlySince (σ₀ σ : Session) (P : Session → Prop) : Prop :=
  ∃ τ, σ.Goes τ ∧ σ₀.Undisturbed τ ∧ (τ.Limited ∨ P τ)

/-- The machine gets somewhere with the property, if its limit of steps lets it, without disturbing anything. -/
def Quietly (σ : Session) (P : Session → Prop) : Prop := QuietlySince σ σ P

variable {σ₀ τ : Session} {P Q : Session → Prop}

theorem Undisturbed.refl (σ : Session) :
  σ.Undisturbed σ
  := ⟨.refl _, rfl⟩

theorem Undisturbed.moved (h : σ₀.Undisturbed σ) (ht : σ₀.store.Adds t) (stack : Stack) (steps : Nat) :
  σ₀.Undisturbed ((σ.reframe stack steps).withStore t) where
  store := ht
  rest := by
    rw [h.rest]
    rfl

theorem Goes.consistent (h : σ.Goes τ) (hσ : σ.Consistent) :
  τ.Consistent ∧ τ.store.Outlives σ.store
  := by
  induction h with
  | refl => exact ⟨hσ, .refl _⟩
  | @tail τ υ _ hstep ih =>
    obtain ⟨hτ, hle⟩ := ih
    have hυ := consistent_step hτ
    rw [hstep] at hυ
    exact ⟨hυ.1, hle.trans hυ.2⟩

namespace QuietlySince

theorem done (h : σ₀.Undisturbed σ) (hP : P σ) :
  QuietlySince σ₀ σ P
  := ⟨σ, .refl, h, .inr hP⟩

theorem bind (h : QuietlySince σ₀ σ P) (hf : ∀ τ, σ.Goes τ → σ₀.Undisturbed τ → P τ → QuietlySince σ₀ τ Q) :
  QuietlySince σ₀ σ Q
  := by
  obtain ⟨τ, hgoes, hundisturbed, hlimited | hP⟩ := h
  · exact ⟨τ, hgoes, hundisturbed, .inl hlimited⟩
  · obtain ⟨υ, hgoes', hundisturbed', hQ⟩ := hf τ hgoes hundisturbed hP
    exact ⟨υ, hgoes.trans hgoes', hundisturbed', hQ⟩

theorem step {s : Stmt} {next : Next} (hσ : σ₀.Undisturbed σ) (hstack : σ.stack = .stmt s env :: rest)
    (hrun : (Exec.stmt env s).Returns (σ.popped rest) next ((σ.popped rest).withStore t))
    (hon : next.onStack rest = .ok stack)
    (h : σ.Goes ((σ.reframe stack (σ.steps + 1)).withStore t) →
      QuietlySince σ₀ ((σ.reframe stack (σ.steps + 1)).withStore t) P) :
  QuietlySince σ₀ σ P
  := by
  by_cases hlimit : σ.Limited
  · exact ⟨σ, .refl, hσ, .inl hlimit⟩
  · have hexecutes : σ.Executes s env rest (.ok next) ((σ.popped rest).withStore t) := ⟨hstack, hlimit, hrun⟩
    have hstep : σ.step = (none, (σ.reframe stack (σ.steps + 1)).withStore t) := by
      rw [hexecutes.step_ok, proceed, show ((σ.popped rest).withStore t).stack = rest from rfl, hon]
      rfl
    obtain ⟨υ, hgoes, hυ⟩ := h (.single hstep)
    exact ⟨υ, .head hstep hgoes, hυ⟩

theorem define (hσ : σ₀.Undisturbed σ)
    (hstack : σ.stack = .stmt (.scope [f] (.seq [.createProc params body f, case])) env :: rest)
    (hbinds : env.Binds ((Stmt.captured params body).filter (· != f)))
    (h : ∀ bindings, bindings.map (·.1) = Stmt.captured params body →
      (∀ b ∈ bindings, (env.extend [(f, σ.store.slots.size)]).lookup b.1 = some b.2) →
      ∀ τ, τ = (σ.reframe (rest.push case (env.extend [(f, σ.store.slots.size)]))
        (σ.steps + 3)).withStore (σ.store.withProcedure ⟨params, body, bindings⟩) →
      σ.Goes τ → QuietlySince σ₀ τ P) :
  QuietlySince σ₀ σ P
  := by
  have henv : (env.extend [(f, σ.store.slots.size)]).Binds (Stmt.captured params body) := by
    have hnames : env.Binds ((Stmt.captured params body).filter (! [f].contains ·)) := by
      simpa [bne, ← Bool.beq_eq_decide_eq] using hbinds
    exact hnames.extend (by simp)
  have hf : (env.extend [(f, σ.store.slots.size)]).lookup f = some σ.store.slots.size := by
    simp [Env.extend]
  have hsince {t : Store} (ht : σ.store.Adds t) (stack : Stack) (steps : Nat) :=
    hσ.moved (hσ.store.trans ht) stack steps
  have hvar : σ.store.Adds σ.store.newVar.2 :=
    ⟨by simp [Store.newVar, Store.newSlot], prefix_rfl, rfl⟩
  have hslot : σ.store.newVar.2.slots[σ.store.slots.size]? = some .unbound := by
    simp [Store.newVar, Store.newSlot]
  refine step hσ hstack rfl rfl fun hscope => ?_
  refine step (hsince hvar _ _) rfl rfl rfl fun hseq => ?_
  obtain ⟨bindings, hnames, hlookup, hrun⟩ := Exec.returns_createProc henv hf
    (σ := (σ.withStore σ.store.newVar.2).reframe (rest.push case
      (env.extend [(f, σ.store.slots.size)])) (σ.steps + 3)) hslot
  have hstore : (σ.store.newVar.2.newClosure ⟨params, body, bindings⟩).2.setSlot
      σ.store.slots.size (.bound (.scalar (.proc (.closure σ.store.procs.size)))) =
      σ.store.withProcedure ⟨params, body, bindings⟩ := by
    have hset (slot : Slot) : (σ.store.slots.push .unbound).setIfInBounds σ.store.slots.size slot =
        σ.store.slots.push slot := Array.ext' (by simp)
    simp [Store.newVar, Store.newSlot, Store.newClosure, Store.setSlot, Store.withProcedure, hset]
  refine step (hsince hvar _ _) rfl hrun rfl fun hcreate => ?_
  refine h bindings hnames hlookup _ ?_ ((hscope.trans hseq).trans hcreate)
  rw [← hstore]
  rfl

end QuietlySince

end Session

end ActorLang
