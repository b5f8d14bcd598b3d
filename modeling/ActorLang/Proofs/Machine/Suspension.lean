import ActorLang.Proofs.Machine.Validity
import Mathlib

/-!
# Statements that wait

A statement that needs a variable that is not bound is put back, and executed again when the machine
goes on.  An attempt that ends like this only adds variables for values to the store.
-/

namespace ActorLang

open Kernel (Stmt)

namespace Session

/-- The sessions that can come about.  Between runs a host may load programs, drop what is left to do, and give the
machine something to do. -/
inductive Arises : Session → Prop where
  | create (maxSteps : Nat) (self : Option ActorId) (w : World) : Arises ⟨.create maxSteps self, w⟩
  | happens {σ τ} (h : Arises σ) (hτ : σ.Happens τ) : Arises τ
  | load {σ} (h : Arises σ) (program : Stmt) : Arises { σ with machine := (σ.load program).2 }
  | abandon {σ} (h : Arises σ) : Arises { σ with machine := σ.abandon }
  | push {σ env} (h : Arises σ) (s : Stmt) (henv : env.Within σ.store) :
      Arises { σ with machine := σ.push s env }

theorem Arises.consistent {σ : Session} (h : σ.Arises) :
  σ.Consistent
  := by
  induction h with
  | create maxSteps self => exact Machine.consistent_create maxSteps self
  | happens _ hτ ih => exact (hτ.consistent ih).1
  | load _ program ih => exact ih.load program
  | abandon _ ih => exact ⟨⟨ih.store, List.forall_mem_nil _, ih.root⟩, List.forall_mem_nil _⟩
  | push _ s henv ih => exact ih.push s henv

variable {σ τ : Session} {v : VarId}

/-- A machine waits only if a statement has to. -/
theorem executes_of_suspend (h : σ.step = (some (.suspend v), τ)) :
  ∃ s env rest x σ', σ.Executes s env rest (.error (.suspend x)) σ' ∧ v = σ'.store.root x ∧
    τ = σ'.withStack (.stmt s env :: σ'.stack)
  := by
  rcases step_eq_some h with ⟨-, hne⟩ | ⟨s, env, rest, x, σ', hexecutes, houtcome, hτ⟩
  · exact absurd rfl (hne v)
  · cases houtcome
    exact ⟨s, env, rest, x, σ', hexecutes, rfl, hτ⟩

/-- An attempt that has to wait only adds variables. -/
theorem addsVars_of_suspend (h : σ.step = (some (.suspend v), τ)) :
  (σ.popped σ.stack).AddsVars τ
  := by
  obtain ⟨s, env, rest, x, σ', hexecutes, -, rfl⟩ := executes_of_suspend h
  have hallows := ((Exec.staged_stmt env s).allows (σ.popped rest)).1 x
  rw [hexecutes.run] at hallows
  obtain ⟨hstore, hrest⟩ := hallows rfl
  refine ⟨hstore, ?_⟩
  have hstack : σ'.stack = rest := congrArg (·.stack) hrest
  rw [hstack, hexecutes.stack]
  exact congrArg (·.withStack (.stmt s env :: rest)) hrest

theorem unbound_of_suspend (h : σ.step = (some (.suspend v), τ)) (hσ : σ.Consistent) :
  τ.store.slots[v]? = some .unbound
  := by
  obtain ⟨s, _, _, x, σ', hexecutes, rfl, rfl⟩ := executes_of_suspend h
  obtain ⟨-, -, -, -, hwaits, -⟩ := hexecutes.sound hσ
  have hx := hwaits x rfl
  have hroot : σ'.store.root x = x := (Store.Leads.stop hx (by rintro _ ⟨⟩)).root_eq
  rw [hroot]
  exact hx

/-- The statement on top of the stack has been tried some times.  Each time it had to wait, and then the host
has changed the store. -/
inductive Tried (σ : Session) : Nat → Session → Prop where
  | never : Tried σ 0 σ
  | again {n τ υ v} (h : Tried σ n τ) (hstep : τ.step = (some (.suspend v), υ)) (t : Store) :
      Tried σ (n + 1) (υ.withStore t)

/-- Attempts that had to wait leave nothing behind but their count, and what is in the store. -/
theorem Tried.eq {n : Nat} (h : σ.Tried n τ) :
  τ = (σ.reframe σ.stack (σ.steps + n)).withStore τ.store
  := by
  induction h with
  | never => rfl
  | @again n τ υ v _ hstep t ih =>
    have hrest : υ.withStore τ.store = τ.popped τ.stack := (addsVars_of_suspend hstep).rest
    have ht := congrArg (·.withStore t) hrest
    refine ht.trans ?_
    rw [ih]
    rfl

/-- Waiting is atomic.  If the step of a machine ends with waiting for a variable, then all that has changed,
besides the count of steps, is that variables may have been added to the store: what was in the store is as it
was, and so are the stack, with the statement on top, the spawns, the requests, and the world with its tokens,
iterators and mailboxes.  In a session that can come about, the variable is not bound.  So, however often a
statement is tried while a host changes the store, it is at last executed in the session in which it was not tried
before, with the store that the host has left. -/
theorem suspension_atomic (σ : Session) :
  (∀ v τ, σ.step = (some (.suspend v), τ) →
    (σ.popped σ.stack).AddsVars τ ∧ (∃ s env rest, τ.stack = .stmt s env :: rest) ∧
      (σ.Arises → τ.store.slots[v]? = some .unbound)) ∧
  ∀ n τ, σ.Tried n τ → τ = (σ.reframe σ.stack (σ.steps + n)).withStore τ.store
  := by
  refine ⟨fun v τ h => ⟨addsVars_of_suspend h, ?_, fun hσ => unbound_of_suspend h hσ.consistent⟩,
    fun n τ => Tried.eq⟩
  obtain ⟨s, env, _, x, σ', -, -, rfl⟩ := executes_of_suspend h
  exact ⟨s, env, σ'.stack, rfl⟩

/-- A program that makes an iterator, the end of which it does not bind. -/
def openRange : Stmt :=
  .scope ["stop", "result"] (.apply (.ident "range") [.lit (.int32 1), .ident "stop", .ident "result"])

def atRange : Session := (⟨((Machine.create 0 none).load openRange).2, {}⟩ : Session).step.2

/-- The machine waits for the end of the range, and has added a variable for the begin of it.  It has not made an
iterator. -/
theorem suspension_atomic_range :
  ∃ τ, atRange.step = (some (.suspend 7), τ) ∧ τ.store.slots[7]? = some .unbound ∧
    τ.store.slots.size = atRange.store.slots.size + 1 ∧
      (atRange.popped atRange.stack).AddsVars τ
  := by
  have hcreated := Arises.create 0 none {}
  have hoccurs : atRange.Arises := (hcreated.load openRange).happens .step
  have houtcome : atRange.step.1 = some (.suspend 7) := by
    cbv
  have hsize : atRange.step.2.store.slots.size = atRange.store.slots.size + 1 := by
    cbv
  cases hstep : atRange.step with
  | mk r τ =>
    rw [hstep] at houtcome hsize
    cases houtcome
    obtain ⟨hadds, -, hunbound⟩ := (suspension_atomic atRange).1 7 τ hstep
    exact ⟨τ, rfl, hunbound hoccurs, hsize, hadds⟩

end Session

end ActorLang
