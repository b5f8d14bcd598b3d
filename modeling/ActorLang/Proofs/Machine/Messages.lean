import ActorLang.Machine.Step
import ActorLang.Proofs.Machine.Returns
import ActorLang.Proofs.Store.Faithful

/-!
# What statements send

Of all statements only applications touch the mailboxes and the requests that wait.  One application
does at most one act: it asks for a new actor, it sends a notification, or it sends a request.  A
request that finds the mailbox closed is refused, but it waits for a response all the same.
`Correspondence` is the part of a session that this is about.
-/

namespace ActorLang

open Kernel (Ident Operand BinaryPrim Stmt)

/-- The snapshot of a value. -/
def Portable.IsSnapshot (p : Portable) : Prop := ∃ (s : Store) (v : Value), s.exportValue v = .ok p

theorem Portable.IsSnapshot.importValue {p : Portable} (h : p.IsSnapshot) (t : Store) :
  ∃ v, (t.importValue p).1 = .ok v
  := by
  obtain ⟨s, v, hv⟩ := h
  obtain ⟨-, -, _, hmirror, hcopy⟩ := Store.valueCopy_exportValue hv
  exact hcopy.copyInto_ok hmirror t

/-! ### Mailboxes -/

/-- The mailbox of an actor is open, and an envelope has been put into it. -/
def Delivered (boxes : Array Mailbox) (actor : ActorId) (e : Envelope) (boxes' : Array Mailbox) : Prop :=
  ∃ queue, boxes[actor]? = some ⟨true, queue⟩ ∧ boxes' = boxes.setIfInBounds actor ⟨true, queue ++ [e]⟩

def Refuses (boxes : Array Mailbox) (actor : ActorId) : Prop :=
  ∀ queue, boxes[actor]? ≠ some ⟨true, queue⟩

theorem World.sent_of_send? {w w' : World} {actor : ActorId} {e : Envelope} (h : w.send? actor e = some w') :
  ∃ queue, w.mailboxes[actor]? = some ⟨true, queue⟩ ∧
    w' = { w with mailboxes := w.mailboxes.setIfInBounds actor ⟨true, queue ++ [e]⟩ }
  := by
  rw [send?] at h
  split at h
  case h_2 => cases h
  case h_1 box hbox =>
    obtain ⟨isOpen, queue⟩ := box
    cases isOpen with
    | false => cases h
    | true =>
      cases h
      exact ⟨queue, hbox, rfl⟩

theorem World.delivered_of_send? {w w' : World} {actor : ActorId} {e : Envelope} (h : w.send? actor e = some w') :
  Delivered w.mailboxes actor e w'.mailboxes
  := by
  obtain ⟨queue, hbox, rfl⟩ := sent_of_send? h
  exact ⟨queue, hbox, rfl⟩

theorem World.refuses_of_send? {w : World} {actor : ActorId} {e : Envelope} (h : w.send? actor e = none) :
  Refuses w.mailboxes actor
  := by
  intro _ hbox
  rw [send?, hbox] at h
  cases h

/-! ### Correspondence -/

/-- The mailboxes, and the requests of a machine that wait for a response. -/
structure Correspondence where
  boxes : Array Mailbox
  self : Option ActorId
  pending : List Nat
  nextRequest : Nat

def Session.mail (σ : Session) : Correspondence :=
  ⟨σ.world.mailboxes, σ.self, σ.pending.map (·.1), σ.nextRequest⟩

namespace Correspondence

/-- The correspondence with one more request that waits for a response. -/
def expecting (c : Correspondence) : Correspondence :=
  { c with pending := c.nextRequest :: c.pending, nextRequest := c.nextRequest + 1 }

/-- All that a step of a machine can do to its correspondence. -/
inductive Act (c : Correspondence) : Correspondence → Prop where
  | quiet : Act c c
  | spawn : Act c { c with boxes := c.boxes.push {} }
  | tell {actor p boxes} (hp : p.IsSnapshot) (h : Delivered c.boxes actor (.notify p) boxes) :
      Act c { c with boxes }
  | ask {actor me p boxes} (hself : c.self = some me) (hp : p.IsSnapshot)
      (h : Delivered c.boxes actor (.request p c.nextRequest me) boxes) :
      Act c { c.expecting with boxes }
  | refused {actor} (h : Refuses c.boxes actor) : Act c c.expecting

end Correspondence

namespace Exec

theorem isSnapshot_of_returns {v : Value} {p : Portable} {σ σ' : Session} (h : (snapshot v).Returns σ p σ') :
  p.IsSnapshot
  := by
  rw [Returns, snapshot, (returns_withStore (·.exportValue v) σ).run_bind] at h
  split at h
  next hexport =>
    cases h
    exact ⟨_, v, hexport⟩
  next => cases h

theorem run_deliver (actor : ActorId) (e : Envelope) (σ : Session) :
  (deliver actor e).run σ = match σ.world.send? actor e with
    | some w => (.ok (), { σ with world := w })
    | none => (.error (.fault (.actorStopped actor)), σ)
  := by
  have hrun : (deliver actor e).run σ = ((fun (sent : Bool × World) =>
      (if !sent.1 then fault (.actorStopped actor) else pure () : Exec Unit).run { σ with world := sent.2 })
      (match σ.world.send? actor e with
        | some w => (true, w)
        | none => (false, σ.world))) := rfl
  rw [hrun]
  cases σ.world.send? actor e <;> rfl

end Exec

/-- The session in which another request waits for a response, in the first of the variables or in a new one. -/
def Session.expecting (σ : Session) (results : List VarId) : Session where
  machine :=
    { σ.machine with
      store := if results.isEmpty then σ.store.newVar.2 else σ.store
      nextRequest := σ.nextRequest + 1
      pending := (σ.nextRequest, results.head?.getD σ.store.newVar.1) :: σ.pending }
  world := σ.world

theorem Exec.returns_newRequest (results : List VarId) (σ : Session) :
  (newRequest results).Returns σ σ.nextRequest (σ.expecting results)
  := by
  cases results <;> rfl

end ActorLang
