import Mathlib
import ActorLang.Actor.Turn
import ActorLang.Compile
import ActorLang.Proofs.Machine.Statements

/-!
# Requests that wait for a response

`Corresponds σ notes` says that a machine has come to `σ` in a run with these notes of its requests,
where anything may happen between the steps.  The machine waits for the requests that it has sent,
also those that were refused, until they are answered or dropped.
-/

namespace ActorLang

open Kernel (Ident Stmt)
open List

/-- What happens to the requests of a machine. -/
inductive Note where
  | accepted (id : Nat)
  | refused (id : Nat)
  | answered (id : Nat)
  | dropped
  deriving DecidableEq

namespace Note

/-- The number of the request that is sent. -/
def sent? : Note → Option Nat
  | accepted id | refused id => some id
  | answered _ | dropped => none

/-- The requests that wait for a response, the latest first. -/
def update (waiting : List Nat) : Note → List Nat
  | accepted id | refused id => id :: waiting
  | answered id => waiting.filter (· != id)
  | dropped => []

/-- The note leaves the request waiting for its response. -/
def Spares (id : Nat) (n : Note) : Prop := n ≠ answered id ∧ n ≠ dropped

/-- A request has been sent, and since then it was neither answered nor dropped. -/
def Waiting (notes : List Note) (id : Nat) : Prop :=
  ∃ before n after, notes = before ++ n :: after ∧ n.sent? = some id ∧ ∀ m ∈ after, m.Spares id

theorem mem_update {waiting : List Nat} {id : Nat} {n : Note} :
  id ∈ update waiting n ↔ n.sent? = some id ∨ id ∈ waiting ∧ n.Spares id
  := by
  cases n with
  | accepted | refused => simp [update, sent?, Spares, eq_comm]
  | answered i =>
    have hne : id ≠ i ↔ answered i ≠ answered id := by
      rw [Ne, Ne, answered.injEq, eq_comm]
    simp [update, sent?, Spares, hne]
  | dropped => simp [update, sent?, Spares]

theorem waiting_append {notes : List Note} {n : Note} {id : Nat} :
  Waiting (notes ++ [n]) id ↔ n.sent? = some id ∨ Waiting notes id ∧ n.Spares id
  := by
  constructor
  · rintro ⟨before, m, after, hnotes, hm, hafter⟩
    rcases eq_nil_or_concat after with rfl | ⟨after, last, rfl⟩
    · obtain ⟨-, hlast⟩ := append_inj' hnotes rfl
      cases hlast
      exact .inl hm
    · have hsplit : notes ++ [n] = (before ++ m :: after) ++ [last] := by
        rw [hnotes]
        simp
      obtain ⟨rfl, hlast⟩ := append_inj' hsplit rfl
      cases hlast
      rw [concat_eq_append, forall_mem_append, forall_mem_singleton] at hafter
      exact .inr ⟨⟨before, m, after, rfl, hm, hafter.1⟩, hafter.2⟩
  · rintro (hn | ⟨⟨before, m, after, rfl, hm, hafter⟩, hn⟩)
    · exact ⟨notes, n, [], rfl, hn, forall_mem_nil _⟩
    · refine ⟨before, m, after ++ [n], by simp, hm, ?_⟩
      rw [forall_mem_append, forall_mem_singleton]
      exact ⟨hafter, hn⟩

theorem mem_foldl_update {notes : List Note} {id : Nat} :
  id ∈ notes.foldl update [] ↔ Waiting notes id
  := by
  induction notes using reverseRecOn with
  | nil => simp [Waiting]
  | append_singleton _ n ih =>
    rw [foldl_append, foldl_cons, foldl_nil, mem_update, waiting_append, ih]

end Note

namespace Session

/-- The notes of a step from one session to another. -/
inductive Noted (σ σ' : Session) : List Note → Prop where
  | quiet (h : σ'.nextRequest = σ.nextRequest) : Noted σ σ' []
  | accepted {id actor me p} (hid : σ.nextRequest = id) (hnext : σ'.nextRequest = id + 1)
      (hself : σ.self = some me)
      (h : Delivered σ.world.mailboxes actor (.request p id me) σ'.world.mailboxes) :
      Noted σ σ' [.accepted id]
  | refused {id} (hid : σ.nextRequest = id) (hnext : σ'.nextRequest = id + 1)
      (h : σ'.world.mailboxes = σ.world.mailboxes) : Noted σ σ' [.refused id]

/-- The machine has come here in a run with these notes.  It begins without requests.  Between its steps it
gets responses, is told to drop what it waits for, and its host may do anything else to it. -/
inductive Corresponds : Session → List Note → Prop where
  | start {σ} (h : σ.pending = []) : Corresponds σ []
  | step {σ notes new} (h : Corresponds σ notes) (hnew : Noted σ σ.step.2 new) :
      Corresponds σ.step.2 (notes ++ new)
  | respond {σ notes} (h : Corresponds σ notes) (id : Nat) (p : Portable) :
      Corresponds { σ with machine := σ.respond id p } (notes ++ [.answered id])
  | abandon {σ notes} (h : Corresponds σ notes) :
      Corresponds { σ with machine := σ.abandon } (notes ++ [.dropped])
  | host {σ σ' notes} (h : Corresponds σ notes) (hpending : σ'.pending = σ.pending)
      (hnext : σ'.nextRequest = σ.nextRequest) : Corresponds σ' notes

end Session

theorem Correspondence.Act.requests {c c' : Correspondence} (h : c.Act c') :
  c'.nextRequest = c.nextRequest ∧ c'.pending = c.pending ∨
  c'.nextRequest = c.nextRequest + 1 ∧ c'.pending = c.nextRequest :: c.pending ∧ ((∃ actor me p, c.self = some me ∧
        Delivered c.boxes actor (.request p c.nextRequest me) c'.boxes) ∨
      c'.boxes = c.boxes)
  := by
  cases h with
  | quiet | spawn | tell => exact .inl ⟨rfl, rfl⟩
  | ask hself hp h => exact .inr ⟨rfl, rfl, .inl ⟨_, _, _, hself, h⟩⟩
  | refused => exact .inr ⟨rfl, rfl, .inr rfl⟩

namespace Session

variable {σ : Session} {notes new : List Note}

theorem exists_noted (σ : Session) :
  ∃ notes, Noted σ σ.step.2 notes
  := by
  rcases σ.act_step.requests with ⟨hnext, -⟩ | ⟨hnext, -, ⟨_, _, _, hself, h⟩ | h⟩
  · exact ⟨_, .quiet hnext⟩
  · exact ⟨_, .accepted rfl hnext hself h⟩
  · exact ⟨_, .refused rfl hnext h⟩

theorem Noted.pending (h : Noted σ σ.step.2 new) :
  σ.step.2.pending.map (·.1) = new.foldl Note.update (σ.pending.map (·.1))
  := by
  rcases σ.act_step.requests with ⟨hsame, hpending⟩ | ⟨hnext, hpending, -⟩
  · cases h with
    | quiet => exact hpending
    | accepted hid hnext | refused hid hnext =>
      cases Nat.succ_ne_self _ (hnext.symm.trans (hsame.trans hid))
  · cases h with
    | quiet hsame => cases Nat.succ_ne_self _ (hnext.symm.trans hsame)
    | accepted hid | refused hid => exact hid ▸ hpending

theorem map_fst_filter (pending : List (Nat × VarId)) (id : Nat) :
  (pending.filter (·.1 != id)).map (·.1) = (pending.map (·.1)).filter (· != id)
  := by
  rw [filter_map]
  rfl

/-- A response is no longer waited for, whatever becomes of its value. -/
theorem pending_respond (m : Machine) (id : Nat) (p : Portable) :
  (m.respond id p).pending = m.pending.filter (·.1 != id) ∧ (m.respond id p).nextRequest = m.nextRequest
  := by
  rcases m.respond_cases id p with ⟨hlookup, heq⟩ | ⟨v, _, -, -, heq | ⟨f, heq⟩⟩
  · rw [heq]
    refine ⟨(filter_eq_self.mpr ?_).symm, rfl⟩
    intro b hb
    rw [bne_comm]
    exact lookup_eq_none_iff.mp hlookup b hb
  · rw [heq]
    exact ⟨rfl, rfl⟩
  · rw [heq]
    exact ⟨rfl, rfl⟩

theorem Corresponds.pending (h : Corresponds σ notes) :
  σ.pending.map (·.1) = notes.foldl Note.update []
  := by
  induction h with
  | start h =>
    rw [h]
    rfl
  | step _ hnew ih => rw [hnew.pending, ih, foldl_append]
  | @respond σ _ _ id p ih =>
    rw [(pending_respond σ.machine id p).1, map_fst_filter, ih, foldl_append]
    rfl
  | abandon =>
    rw [foldl_append]
    rfl
  | host _ hpending _ ih => rw [hpending, ih]

theorem Noted.numbers (h : Noted σ σ.step.2 new) :
  new.filterMap Note.sent? = [] ∧ σ.step.2.nextRequest = σ.nextRequest ∨
  new.filterMap Note.sent? = [σ.nextRequest] ∧ σ.step.2.nextRequest = σ.nextRequest + 1
  := by
  cases h with
  | quiet hsame => exact .inl ⟨rfl, hsame⟩
  | accepted hid hnext | refused hid hnext =>
    subst hid
    exact .inr ⟨rfl, hnext⟩

theorem Corresponds.numbers (h : Corresponds σ notes) :
  (notes.filterMap Note.sent?).Nodup ∧ ∀ id ∈ notes.filterMap Note.sent?, id < σ.nextRequest
  := by
  induction h with
  | start h => exact ⟨nodup_nil, forall_mem_nil _⟩
  | @step σ notes new _ hnew ih =>
    obtain ⟨hnodup, hlt⟩ := ih
    rw [filterMap_append]
    rcases hnew.numbers with ⟨hnone, hnext⟩ | ⟨hone, hnext⟩
    · rw [hnone, append_nil, hnext]
      exact ⟨hnodup, hlt⟩
    · rw [hone, hnext, forall_mem_append, forall_mem_singleton]
      refine ⟨hnodup.append (nodup_singleton _) ?_, ?_, Nat.lt_succ_self _⟩
      · rw [disjoint_singleton]
        exact fun hmem => Nat.lt_irrefl _ (hlt _ hmem)
      · exact fun id hid => Nat.lt_succ_of_lt (hlt id hid)
  | @respond σ notes _ id p ih =>
    have hnone : [Note.answered id].filterMap Note.sent? = [] := rfl
    rw [filterMap_append, hnone, append_nil, (pending_respond σ.machine id p).2]
    exact ih
  | abandon _ ih =>
    have hnone : [Note.dropped].filterMap Note.sent? = [] := rfl
    rw [filterMap_append, hnone, append_nil]
    exact ih
  | host _ _ hnext ih =>
    rw [hnext]
    exact ih

/-- A machine waits for a response exactly if it has sent the request, accepted or refused, and has since
been neither answered nor told to drop it.  Every request has a number of its own, and every step has its
notes.  If nothing is left to wait for, a turn of the machine ends when the machine rests. -/
theorem pending_iff_waiting (h : Corresponds σ notes) :
  (∀ id, id ∈ σ.pending.map (·.1) ↔ Note.Waiting notes id) ∧
  (notes.filterMap Note.sent?).Nodup ∧ (∃ new, Corresponds σ.step.2 (notes ++ new)) ∧
  ((∀ id, ¬ Note.Waiting notes id) → σ.hasPending = false ∧
    ∀ (a : Actor) (w : World) (t : Task), a.machine = σ.machine →
      a.rest w t .done = a.endTask w t .done ∧
      ∀ v, a.rest w t (.suspend v) = a.endTask w t .suspended)
  := by
  have hmem (id : Nat) : id ∈ σ.pending.map (·.1) ↔ Note.Waiting notes id := by
    rw [h.pending, Note.mem_foldl_update]
  obtain ⟨new, hnew⟩ := exists_noted σ
  refine ⟨hmem, h.numbers.1, ⟨new, h.step hnew⟩, fun hnone => ?_⟩
  have hempty : σ.pending.map (·.1) = [] :=
    eq_nil_iff_forall_not_mem.mpr fun id hid => hnone id ((hmem id).mp hid)
  have hpending : σ.hasPending = false := by
    rw [Machine.hasPending, map_eq_nil_iff.mp hempty]
    rfl
  refine ⟨hpending, fun a w t ha => ?_⟩
  rw [← ha] at hpending
  refine ⟨?_, fun v => ?_⟩
  · simp only [Actor.rest, hpending, Bool.false_eq_true, reduceIte]
  · simp only [Actor.rest, hpending, Bool.false_eq_true, reduceIte]

/-- A request for an actor, in an attempt that takes what is thrown. -/
def asking (actor : Ident) : Stmt :=
  .attempt (.selectApply (.ident actor) [.lit (.str "ask")] [.lit (.int32 1)]) "e" .skip

/-- The machine of the first actor is going to send requests to the second, which has stopped, and to the
third. -/
def twoRequests : Session :=
  let store := (({} : Store).newBound (.scalar (.actor 1))).2
  let store := (store.newBound (.scalar (.actor 2))).2
  let env : Env := [("stopped", 0), ("running", 1)]
  { machine := {
      store
      stack := [.stmt (asking "stopped") env, .stmt (asking "running") env]
      self := some 0 }
    world := { mailboxes := #[{}, { isOpen := false }, {}] } }

def next (σ : Session) : Session := σ.step.2

/-- Both requests have been sent. -/
def sentRequests : Session := twoRequests.next.next.next.next.next

/-- The second request is answered, the first one waits on. -/
theorem pending_iff_waiting_refused :
  (sentRequests.respond 1 (.error "E" "")).pending.map (·.1) = [0] ∧
  Note.Waiting [.refused 0, .accepted 1, .answered 1] 0
  := by
  have hpending : (sentRequests.respond 1 (.error "E" "")).pending.map (·.1) = [0] := by
    cbv
  have hopened : Corresponds twoRequests.next [] :=
    .step (.start rfl) (.quiet (by cbv))
  have hrefused : Corresponds twoRequests.next.next [.refused 0] :=
    hopened.step (.refused (by cbv) (by cbv) (by cbv))
  have hcaught : Corresponds twoRequests.next.next.next [.refused 0] :=
    hrefused.step (.quiet (by cbv))
  have hagain : Corresponds twoRequests.next.next.next.next [.refused 0] :=
    hcaught.step (.quiet (by cbv))
  have hdelivered : Delivered twoRequests.next.next.next.next.world.mailboxes 2
      (.request ⟨{}, .lit (.int32 1)⟩ 1 0) sentRequests.world.mailboxes :=
    ⟨[], by cbv, by cbv⟩
  have haccepted : Corresponds sentRequests [.refused 0, .accepted 1] :=
    hagain.step (.accepted (by cbv) (by cbv) (by cbv) hdelivered)
  have hiff := (pending_iff_waiting (haccepted.respond 1 (.error "E" ""))).1 0
  rw [hpending] at hiff
  exact ⟨hpending, hiff.mp (mem_singleton_self 0)⟩

/-- The machine is going to send the first of the requests only. -/
def oneRequest : Session := twoRequests.withStack (twoRequests.stack.take 1)

/-- The request is refused and the error is caught.  When the machine rests it waits for a response, although
nothing has come into any mailbox. -/
theorem refused_request_stays_pending :
  (oneRequest.run 10).1 = some .done ∧ (oneRequest.run 10).2.hasPending = true ∧
    (oneRequest.run 10).2.world.mailboxes = oneRequest.world.mailboxes
  := by
  refine ⟨by cbv, by cbv, by cbv⟩

end Session

end ActorLang
