import ActorLang.Store.Portable

/-!
# Envelopes, mailboxes and what machines share

Actors exchange envelopes through mailboxes, which deliver in the order of sending.  The world holds
the mailboxes, and the tokens and iterators that several machines know.
-/

namespace ActorLang

/-- The content of an envelope. -/
inductive Message where
  /-- Tells an actor to stop. -/
  | stop
  | data (p : Portable)
  deriving Inhabited

/-- A message and its routing.  A request has a number and a requester, its response has the
number only, and a notification has neither. -/
structure Envelope where
  message : Message
  requestId : Option Nat := none
  requester : Option ActorId := none
  deriving Inhabited

namespace Envelope

def notify (p : Portable) : Envelope := { message := .data p }

def request (p : Portable) (id : Nat) (requester : ActorId) : Envelope :=
  { message := .data p, requestId := some id, requester := some requester }

def response (p : Portable) (id : Nat) : Envelope := { message := .data p, requestId := some id }

def stop : Envelope := { message := .stop }

def isControl (e : Envelope) : Bool :=
  match e.message with
  | .stop => true
  | .data _ => false

def isNotify (e : Envelope) : Bool := !e.isControl && e.requestId.isNone

def isRequest (e : Envelope) : Bool := !e.isControl && e.requester.isSome

def isResponse (e : Envelope) : Bool :=
  !e.isControl && e.requestId.isSome && e.requester.isNone

end Envelope

/-- The envelopes that wait for an actor, first come first.  A closed mailbox takes no more. -/
structure Mailbox where
  isOpen : Bool := true
  queue : List Envelope := []
  deriving Inhabited

/-- An iterator over the integers from `next` up to, not including, `stop`. -/
structure RangeIterator where
  next : Int64
  stop : Int64
  /-- Whether it gives 64-bit integers. -/
  wide : Bool

/-- What a call gives, and the iterator after it. -/
def RangeIterator.advance (it : RangeIterator) : Literal × RangeIterator :=
  -- The sum may wrap, but only where the iterator is put back to its end.
  let next := it.next + 1
  if it.stop ≤ it.next then (.eof, { it with next := it.stop })
  else (if it.wide then .int64 it.next else .int32 it.next.toInt32, { it with next })

/-- What machines share. -/
structure World where
  nextToken : Nat := 0
  iterators : Array RangeIterator := #[]
  mailboxes : Array Mailbox := #[]
  deriving Inhabited

namespace World

def newMailbox (w : World) : ActorId × World :=
  (w.mailboxes.size, { w with mailboxes := w.mailboxes.push {} })

/-- Puts an envelope into a mailbox that is open. -/
def send? (w : World) (actor : ActorId) (e : Envelope) : Option World :=
  match w.mailboxes[actor]? with
  | some box =>
    if box.isOpen then
      some { w with mailboxes :=
        w.mailboxes.setIfInBounds actor { box with queue := box.queue ++ [e] } }
    else none
  | none => none

def receive? (w : World) (actor : ActorId) : Option (Envelope × World) :=
  match w.mailboxes[actor]? with
  | some box => match box.queue with
    | [] => none
    | e :: rest =>
      some (e, { w with mailboxes := w.mailboxes.setIfInBounds actor { box with queue := rest } })
  | none => none

def close (w : World) (actor : ActorId) : List Envelope × World :=
  match w.mailboxes[actor]? with
  | some box =>
    (box.queue, { w with mailboxes := w.mailboxes.setIfInBounds actor { isOpen := false } })
  | none => ([], w)

def isOpen (w : World) (actor : ActorId) : Bool := (w.mailboxes[actor]?).any (·.isOpen)

end World

end ActorLang
