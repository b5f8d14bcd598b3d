import ActorLang.Actor.Turn
import ActorLang.Proofs.Machine.Statements

/-!
# The deeds of actors

A step of an actor executes a statement, or takes an envelope.  All that it does besides, to the
mailboxes and to the turns, are deeds, which `Actor.deeds` lists.
-/

namespace ActorLang

open List

/-! ### Envelopes -/

namespace Envelope

def isTurn (e : Envelope) : Bool := e.isRequest || e.isNotify

theorem isResponse_of_isTurn {e : Envelope} (h : e.isTurn = true) :
  e.isResponse = false
  := by
  obtain ⟨message, requestId, requester⟩ := e
  cases message with
  | stop => rfl
  | data =>
    cases requestId with
    | none => rfl
    | some =>
      cases requester with
      | none => cases h
      | some => rfl

/-- Who has sent a request, and its number. -/
def request? (e : Envelope) : Option (ActorId × Nat) :=
  match e.requester, e.requestId with
  | some requester, some id => some (requester, id)
  | _, _ => none

/-- The envelopes that actors and their hosts send.  A message for a turn is the snapshot of a value. -/
inductive Proper : Envelope → Prop where
  | stop : Proper .stop
  | notify {p} (h : p.IsSnapshot) : Proper (.notify p)
  | request {p} (h : p.IsSnapshot) (id : Nat) (requester : ActorId) :
      Proper (.request p id requester)
  | response (p : Portable) (id : Nat) : Proper (.response p id)

end Envelope

/-- The task is that of the turn of an envelope. -/
def Task.Serves (e : Envelope) : Task → Prop
  | ask requester request _ => e.request? = some (requester, request)
  | tell => e.request? = none
  | program | configure _ => False

/-- The actor works on its program, or has ended it. -/
def Phase.OfProgram (phase : Phase) : Prop :=
  phase = .running .program ∨ phase = .waiting .program ∨ ∃ e, phase = .finished e

/-! ### Deeds -/

/-- What an actor does. -/
inductive Deed where
  | take (e : Envelope)
  | start (e : Envelope)
  | finish (how : TurnEnd)
  | answer (requester : ActorId) (id : Nat) (p : Portable)
  | halt (report : HaltReport)
  | close (queue : List Envelope)

def Deed.onWorld (id : ActorId) (w : World) : Deed → World
  | take _ => match w.receive? id with
    | some (_, w) => w
    | none => w
  | answer requester request p => Actor.post w requester (.response p request)
  | close _ => (w.close id).2
  | start _ | finish _ | halt _ => w

/-- The deed can be done: an envelope that is taken is the first in the mailbox, and those in a mailbox that
is closed are all that it has. -/
def Deed.Possible (id : ActorId) (w : World) : Deed → Prop
  | take e => ∃ w', w.receive? id = some (e, w')
  | close queue => queue = (w.close id).1
  | start _ | finish _ | answer _ _ _ | halt _ => True

/-- The deeds can be done one after the other. -/
def Deed.AllPossible (id : ActorId) : World → List Deed → Prop
  | _, [] => True
  | w, d :: rest => d.Possible id w ∧ AllPossible id (d.onWorld id w) rest

def Deed.halt? : Deed → Option HaltReport
  | halt report => some report
  | take _ | start _ | finish _ | answer _ _ _ | close _ => none

namespace Actor

/-- The answers to requests that will not be handled. -/
def refusals (id : ActorId) (envelopes : List Envelope) : List Deed :=
  (envelopes.filterMap Envelope.request?).map fun (requester, request) =>
    .answer requester request (stoppedReply id)

def stopDeeds (a : Actor) (w : World) : List Deed :=
  .close (w.close a.id).1 :: refusals a.id (a.deferred ++ (w.close a.id).1)

def haltDeeds (a : Actor) (w : World) (report : HaltReport) : List Deed :=
  .halt report :: a.stopDeeds w

def endTaskDeeds (a : Actor) (w : World) (t : Task) (e : TurnEnd) : List Deed :=
  match t with
  | .program => []
  | .configure result => match e with
    | .done => match a.handlersOf result with
      | .ok _ => []
      | .error message => a.haltDeeds w ⟨a.id, some "TypeError", message⟩
    | .halted v => a.haltDeeds w (a.haltReport v)
    | .suspended | .stopped =>
      a.haltDeeds w ⟨a.id, some "NotBoundError", "actor configuration did not complete"⟩
  | .ask requester request result =>
    let p := a.turnReply result e
    .answer requester request p :: .finish e :: match e with
    | .done | .halted _ | .suspended => []
    | .stopped => a.stopDeeds (post w requester (.response p request))
  | .tell => .finish e :: match e with
    | .done | .suspended => []
    | .halted v => a.haltDeeds w (a.haltReport v)
    | .stopped => a.stopDeeds w

def restDeeds (a : Actor) (w : World) (t : Task) : Outcome → List Deed
  | .halt v => a.endTaskDeeds w t (.halted v)
  | .done => if a.hasPending then [] else a.endTaskDeeds w t .done
  | .suspend _ => if a.hasPending then [] else a.endTaskDeeds w t .suspended

/-- The session in which a statement of the actor has been executed, and its outcome. -/
def executed (a : Actor) (w : World) : Option Outcome × Session := Session.step ⟨a.machine, w⟩

/-- The actor whose machine has come to rest. -/
def rested (a : Actor) (m : Machine) : Actor := { a with machine := { m with spawns := [] } }

def awaitDeeds (a : Actor) (w : World) (t : Task) (e : Envelope) : List Deed :=
  match e.message with
  | .stop => a.endTaskDeeds w t .stopped
  | .data _ => []

def acceptDeeds (a : Actor) (w : World) (e : Envelope) : List Deed :=
  match e.message with
  | .stop => a.stopDeeds w
  | .data p => if e.isTurn && (a.store.importValue p).1.isOk then [.start e] else []

def deeds (a : Actor) (w : World) : List Deed :=
  match a.phase with
  | .running t => match (a.executed w).1 with
    | none => []
    | some outcome =>
      (a.rested (a.executed w).2.machine).restDeeds (a.executed w).2.world t outcome
  | .waiting t => match w.receive? a.id with
    | none => []
    | some (e, w) => .take e :: a.awaitDeeds w t e
  | .idle => match a.deferred with
    | e :: deferred => { a with deferred }.acceptDeeds w e
    | [] => match w.receive? a.id with
      | none => []
      | some (e, w) => .take e :: a.acceptDeeds w e
  | .finished _ | .stopped => []

/-- What the statement of a step does to the mailboxes. -/
def worked (a : Actor) (w : World) : World :=
  match a.phase with
  | .running _ => (a.executed w).2.world
  | _ => w

/-! ### Deeds and steps -/

variable {a : Actor} {w w' : World} {r : Actor × World × Events} {me : ActorId} {e : Envelope} {p : Portable}

theorem foldl_refusals (id me : ActorId) (w : World) (envelopes : List Envelope) :
  (refusals id envelopes).foldl (Deed.onWorld me) w = refuse id w envelopes
  := by
  fun_induction refuse id w envelopes with
  | case1 w => rfl
  | case2 w e rest requester request hrequester hrequest ih =>
    simp only [refusals, Envelope.request?, hrequester, hrequest, filterMap_cons] at ih ⊢
    exact ih
  | case3 w e _ hnone ih =>
    have hrequest : e.request? = none := by
      rw [Envelope.request?]
      split
      next hrequester hrequest => cases hnone _ _ hrequester hrequest
      next => rfl
    simp only [refusals, hrequest, filterMap_cons] at ih ⊢
    exact ih

/-- The deeds lead from a world to what a part of a step comes to. -/
structure Accounts (me : ActorId) (w : World) (deeds : List Deed) (r : Actor × World × Events) :
    Prop where
  id : r.1.id = me
  possible : Deed.AllPossible me w deeds
  world : deeds.foldl (Deed.onWorld me) w = r.2.1
  halts : deeds.filterMap Deed.halt? = r.2.2.halts

theorem Accounts.nil (hid : r.1.id = me) (hworld : w = r.2.1) (hhalts : [] = r.2.2.halts) :
  Accounts me w [] r
  := ⟨hid, trivial, hworld, hhalts⟩

theorem Accounts.cons {deeds : List Deed} {d : Deed}
    (h : Accounts me (d.onWorld me w) deeds r) (hd : d.halt? = none) (hpossible : d.Possible me w) :
  Accounts me w (d :: deeds) r where
  id := h.id
  possible := ⟨hpossible, h.possible⟩
  world := h.world
  halts := by
    rw [filterMap_cons, hd]
    exact h.halts

theorem allPossible_refusals (id me : ActorId) (w : World) (envelopes : List Envelope) :
  Deed.AllPossible me w (refusals id envelopes)
  := by
  rw [refusals]
  induction envelopes.filterMap Envelope.request? generalizing w with
  | nil => trivial
  | cons r rest ih => exact ⟨trivial, ih _⟩

theorem accounts_stop (a : Actor) (w : World) :
  Accounts a.id w (a.stopDeeds w) ((a.stop w).1, (a.stop w).2, {})
  := by
  refine ⟨rfl, ⟨rfl, allPossible_refusals ..⟩, ?_, ?_⟩
  · rw [stopDeeds, foldl_cons, foldl_refusals]
    rfl
  · rw [stopDeeds, filterMap_cons, refusals, filterMap_map]
    exact filterMap_eq_nil_iff.mpr fun _ _ => rfl

theorem accounts_halt (a : Actor) (w : World) (report : HaltReport) :
  Accounts a.id w (a.haltDeeds w report) (a.halt w report) where
  id := rfl
  possible := ⟨trivial, (a.accounts_stop w).possible⟩
  world := (a.accounts_stop w).world
  halts := by
    rw [haltDeeds, filterMap_cons, (a.accounts_stop w).halts]
    rfl

theorem accounts_endTask (a : Actor) (w : World) (t : Task) (e : TurnEnd) :
  Accounts a.id w (a.endTaskDeeds w t e) (a.endTask w t e)
  := by
  cases t with
  | program => exact .nil rfl rfl rfl
  | configure result =>
    cases e with
    | done =>
      simp only [endTaskDeeds, endTask]
      cases a.handlersOf result with
      | ok handlers => exact .nil rfl rfl rfl
      | error message => apply accounts_halt
    | suspended | halted | stopped => apply accounts_halt
  | ask requester request result =>
    refine .cons (.cons ?_ rfl trivial) rfl trivial
    cases e with
    | done | suspended | halted => exact .nil rfl rfl rfl
    | stopped => exact a.abandon.accounts_stop _
  | tell =>
    refine .cons ?_ rfl trivial
    cases e with
    | done | suspended => exact .nil rfl rfl rfl
    | halted v => apply accounts_halt
    | stopped => exact a.abandon.accounts_stop _

/-! ### Cases -/

/-- The machine has come to rest with an outcome, and with it the task ends. -/
inductive Ends (a : Actor) : Outcome → TurnEnd → Prop where
  | halted (v : Value) : Ends a (.halt v) (.halted v)
  | done (h : ¬ a.hasPending = true) : Ends a .done .done
  | suspended (v : VarId) (h : ¬ a.hasPending = true) : Ends a (.suspend v) .suspended

/-- What comes of a machine that is at rest. -/
inductive Rested (a : Actor) (w : World) (t : Task) (outcome : Outcome) :
    Actor × World × Events → List Deed → Prop where
  | waits (h : ∀ v, outcome ≠ .halt v) : Rested a w t outcome ({ a with phase := .waiting t }, w, {}) []
  | ends {e : TurnEnd} (h : a.Ends outcome e) :
      Rested a w t outcome (a.endTask w t e) (a.endTaskDeeds w t e)

theorem rested_rest (a : Actor) (w : World) (t : Task) (outcome : Outcome) :
  Rested a w t outcome (a.rest w t outcome) (a.restDeeds w t outcome)
  := by
  cases outcome with
  | halt v => exact .ends (.halted v)
  | done =>
    rw [rest, restDeeds]
    split
    next => exact .waits (by simp)
    next hpending => exact .ends (.done hpending)
  | suspend v =>
    rw [rest, restDeeds]
    split
    next => exact .waits (by simp)
    next hpending => exact .ends (.suspended v hpending)

/-- What comes of an envelope that is taken while a turn waits for a response. -/
inductive Awaited (a : Actor) (w : World) (t : Task) : Envelope → Actor × World × Events → List Deed → Prop where
  | stop {e : Envelope} (h : e.message = .stop) :
      Awaited a w t e (a.endTask w t .stopped) (a.endTaskDeeds w t .stopped)
  | response (p : Portable) (id : Nat) :
      Awaited a w t (.response p id) ({ a with machine := a.respond id p }.work t, w, {}) []
  | aside {e : Envelope} (hcontrol : e.isControl = false) (hturn : e.isTurn = true) :
      Awaited a w t e ({ a with deferred := a.deferred ++ [e] }, w, {}) []

theorem awaited_await (a : Actor) (w : World) (t : Task) (e : Envelope) :
  Awaited a w t e (a.await w t e) (a.awaitDeeds w t e)
  := by
  obtain ⟨message, requestId, requester⟩ := e
  cases message with
  | stop => exact .stop rfl
  | data p =>
    cases requestId with
    | none => cases requester <;> exact .aside rfl rfl
    | some id =>
      cases requester with
      | none => exact .response p id
      | some => exact .aside rfl rfl

/-- What comes of an envelope that is taken between turns. -/
inductive Accepted (a : Actor) (w : World) : Envelope → Actor × World × Events → List Deed → Prop where
  | stop {e : Envelope} (h : e.message = .stop) : Accepted a w e ((a.stop w).1, (a.stop w).2, {}) (a.stopDeeds w)
  | response (p : Portable) (id : Nat) :
      Accepted a w (.response p id) ({ a with machine := a.respond id p }, w, {}) []
  | starts {e m t} (hturn : e.isTurn = true) (ht : t.Serves e) (hpending : m.pending = a.pending)
      (hnext : m.nextRequest = a.nextRequest) :
      Accepted a w e ({ a with machine := m }.work t, w, {}) [.start e]
  /-- The message cannot be taken in. -/
  | lost {e p reason} (hturn : e.isTurn = true) (hmessage : e.message = .data p)
      (h : (a.store.importValue p).1 = .error reason) :
      Accepted a w e ({ a with machine := (a.onStore (·.importValue p)).2 }, w, {}) []

theorem accepted_accept (a : Actor) (w : World) (e : Envelope) :
  Accepted a w e (a.accept w e) (a.acceptDeeds w e)
  := by
  obtain ⟨message, requestId, requester⟩ := e
  cases message with
  | stop => exact .stop rfl
  | data p =>
    have hlost {reason : NotPortable} (hturn : Envelope.isTurn ⟨.data p, requestId, requester⟩ = true)
        (h : (a.store.importValue p).1 = .error reason) := Accepted.lost (w := w) hturn rfl h
    cases himport : a.store.importValue p with
    | mk result store =>
    have honStore : a.onStore (·.importValue p) = (result, { a.machine with store }) := by
      rw [Machine.onStore, himport]
    rw [himport, honStore] at hlost
    simp only [accept, acceptDeeds, honStore, himport]
    cases requestId with
    | none =>
      cases result with
      | error reason => cases requester <;> exact hlost rfl rfl
      | ok v => cases requester <;> exact .starts rfl rfl rfl rfl
    | some id =>
      cases requester with
      | none => exact .response p id
      | some actor =>
        cases result with
        | error reason => exact hlost rfl rfl
        | ok v => exact .starts rfl rfl rfl rfl

theorem Accepted.accounts {deeds : List Deed} (h : Accepted a w e r deeds) :
  Accounts a.id w deeds r
  := by
  cases h with
  | stop => exact a.accounts_stop w
  | response | lost => exact .nil rfl rfl rfl
  | starts => exact .cons (.nil rfl rfl rfl) rfl trivial

/-! ### Steps -/

/-- What follows from an envelope, as a step. -/
def taking (r : Actor × World × Events) : Actor × World × Option Events := (r.1, r.2.1, some r.2.2)

/-- All that a step of an actor can do, with its deeds. -/
inductive Stepped (a : Actor) (w : World) : Actor × World × Option Events → List Deed → Prop where
  | nothing (hphase : ∀ t, a.phase ≠ .running t) : Stepped a w (a, w, none) []
  /-- A statement of the task is executed, and there is more to do. -/
  | going {t σ} (hphase : a.phase = .running t) (h : a.executed w = (none, σ)) :
      Stepped a w ({ a with machine := σ.machine }, σ.world, some {}) []
  | rest {t : Task} {σ : Session} {outcome : Outcome} {r : Actor × World × Events}
      {deeds : List Deed} (hphase : a.phase = .running t) (h : a.executed w = (some outcome, σ))
      (hr : (a.rested σ.machine).rest σ.world t outcome = r)
      (hrested : Rested (a.rested σ.machine) σ.world t outcome r deeds) :
      Stepped a w (taking (r.1, r.2.1, { r.2.2 with spawns := σ.spawns })) deeds
  | await {t : Task} {e : Envelope} {w' : World} {r : Actor × World × Events} {deeds : List Deed}
      (hphase : a.phase = .waiting t) (h : w.receive? a.id = some (e, w')) (hr : a.await w' t e = r)
      (hawaited : Awaited a w' t e r deeds) : Stepped a w (taking r) (.take e :: deeds)
  /-- Between turns, envelopes that were put aside come first. -/
  | deferred {e : Envelope} {deferred : List Envelope} {r : Actor × World × Events} {deeds : List Deed}
      (hphase : a.phase = .idle) (h : a.deferred = e :: deferred) (hr : { a with deferred }.accept w e = r)
      (haccepted : Accepted { a with deferred } w e r deeds) : Stepped a w (taking r) deeds
  | accept {e : Envelope} {w' : World} {r : Actor × World × Events} {deeds : List Deed} (hphase : a.phase = .idle)
      (hdeferred : a.deferred = []) (h : w.receive? a.id = some (e, w')) (hr : a.accept w' e = r)
      (haccepted : Accepted a w' e r deeds) : Stepped a w (taking r) (.take e :: deeds)

theorem stepped_step (a : Actor) (w : World) :
  Stepped a w (a.step w) (a.deeds w)
  := by
  obtain ⟨machine, id, phase, _, deferred⟩ := a
  cases phase with
  | running t =>
    cases h : Session.step ⟨machine, w⟩ with
    | mk outcome σ =>
    simp only [step, stepTask, deeds, executed, h]
    cases outcome with
    | none => exact .going rfl h
    | some => exact .rest rfl h rfl (rested_rest ..)
  | waiting =>
    simp only [step, receive, deeds]
    cases h : w.receive? id with
    | none => exact .nothing (by simp)
    | some => exact .await rfl h rfl (awaited_await ..)
  | idle =>
    cases deferred with
    | cons e deferred => exact .deferred rfl rfl rfl (accepted_accept ..)
    | nil =>
      simp only [step, receive, deeds]
      cases h : w.receive? id with
      | none => exact .nothing (by simp)
      | some => exact .accept rfl rfl h rfl (accepted_accept ..)
  | finished | stopped => exact .nothing (by simp)

theorem worked_running {t : Task} (hphase : a.phase = .running t) :
  a.worked w = (a.executed w).2.world
  := by
  rw [worked, hphase]

theorem worked_of_not_running (hphase : ∀ t, a.phase ≠ .running t) :
  a.worked w = w
  := by
  rw [worked]
  split
  next t h => cases hphase t h
  next => rfl

theorem onWorld_take {w' : World} {e : Envelope} (h : w.receive? a.id = some (e, w')) :
  (Deed.take e).onWorld a.id w = w'
  := by
  rw [Deed.onWorld, h]

/-- After the statement of a step, its deeds are all that happens to the mailboxes, and all that is reported
of halts. -/
theorem accounts_step (a : Actor) (w : World) :
  Accounts a.id (a.worked w) (a.deeds w) ((a.step w).1, (a.step w).2.1, (a.step w).2.2.getD {})
  := by
  have hstepped := a.stepped_step w
  generalize a.step w = r, a.deeds w = deeds at hstepped ⊢
  cases hstepped with
  | nothing hphase =>
    rw [worked_of_not_running hphase]
    exact .nil rfl rfl rfl
  | going hphase h =>
    rw [worked_running hphase, h]
    exact .nil rfl rfl rfl
  | @rest t σ _ _ _ hphase h _ hrested =>
    rw [worked_running hphase, h]
    cases hrested with
    | waits => exact .nil rfl rfl rfl
    | @ends e _ =>
      have hends := (a.rested σ.machine).accounts_endTask σ.world t e
      exact ⟨hends.id, hends.possible, hends.world, hends.halts⟩
  | await hphase h _ hawaited =>
    rw [worked_of_not_running (by simp [hphase])]
    refine .cons ?_ rfl ⟨_, h⟩
    rw [onWorld_take h]
    cases hawaited with
    | stop => apply accounts_endTask
    | response | aside => exact .nil rfl rfl rfl
  | deferred hphase _ _ haccepted =>
    rw [worked_of_not_running (by simp [hphase])]
    exact haccepted.accounts
  | accept hphase _ h _ haccepted =>
    rw [worked_of_not_running (by simp [hphase])]
    refine .cons ?_ rfl ⟨_, h⟩
    rw [onWorld_take h]
    exact haccepted.accounts

end Actor

end ActorLang
