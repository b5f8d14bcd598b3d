import ActorLang.Proofs.Actor.Deeds
import Mathlib.Data.List.Basic

/-!
# What a log of deeds says

`Progress` sums up a log of the deeds of an actor: which envelopes were taken and whose turns have
started, which turn is under way and which were handled, and which requests were answered.
-/

namespace ActorLang

open List

/-- What has come of the deeds so far. -/
structure Progress where
  /-- The envelopes that have left the mailbox. -/
  taken : List Envelope := []
  /-- Those whose turns have started. -/
  begun : List Envelope := []
  /-- The one whose turn has not come to its end. -/
  current : Option Envelope := none
  /-- Those whose turns have come to their end, without being told to stop. -/
  handled : List Envelope := []
  /-- The requesters and numbers of the requests that were answered. -/
  answered : List (ActorId × Nat) := []
  halts : List HaltReport := []

namespace Progress

/-- What has come of the deeds after one more. -/
def next (p : Progress) : Deed → Progress
  | .take e => { p with taken := p.taken ++ [e] }
  | .start e => { p with begun := p.begun ++ [e], current := some e }
  | .finish how => { p with
      current := none
      handled := p.handled ++ if how = .stopped then [] else p.current.toList }
  | .answer requester id _ => { p with answered := p.answered ++ [(requester, id)] }
  | .halt report => { p with halts := p.halts ++ [report] }
  | .close queue => { p with taken := p.taken ++ queue }

/-- What has come of the deeds of a log. -/
def of (log : List Deed) : Progress := log.foldl next {}

theorem of_append (log more : List Deed) :
  of (log ++ more) = more.foldl next (of log)
  := foldl_append

end Progress

variable {log more before after : List Deed} {e : Envelope} {how : TurnEnd}
  {deferred : List Envelope} {c : Option Envelope} {p : Progress}

theorem append_eq_append_cons {d : Deed} (h : log ++ more = before ++ d :: after) :
  (∃ between, log = before ++ d :: between) ∨
  ∃ between, before = log ++ between ∧ more = between ++ d :: after
  := by
  rcases append_eq_append_iff.mp h with ⟨between, hbefore, hmore⟩ | ⟨between, hlog, hrest⟩
  · exact .inr ⟨between, hbefore, hmore⟩
  · cases between with
    | nil => exact .inr ⟨[], by rw [hlog, append_nil, append_nil], hrest.symm⟩
    | cons x between =>
      cases hrest
      exact .inl ⟨between, hlog⟩

def turns (envelopes : List Envelope) : List Envelope := envelopes.filter (·.isTurn)

def requests (envelopes : List Envelope) : List (ActorId × Nat) := envelopes.filterMap (·.request?)

theorem turns_append (l l' : List Envelope) :
  turns (l ++ l') = turns l ++ turns l'
  := filter_append ..

theorem requests_append (l l' : List Envelope) :
  requests (l ++ l') = requests l ++ requests l'
  := filterMap_append ..

theorem requests_singleton (e : Envelope) :
  requests [e] = e.request?.toList
  := by
  cases h : e.request? <;> simp [requests, h]

theorem requests_turns {envelopes : List Envelope} (h : ∀ e ∈ envelopes, e.Proper) :
  requests (turns envelopes) = requests envelopes
  := by
  induction envelopes with
  | nil => rfl
  | cons e _ ih =>
    obtain ⟨he, hrest⟩ := forall_mem_cons.mp h
    rw [turns, requests, filter_cons]
    split
    next =>
      have ih := ih hrest
      rw [requests, requests, turns] at ih
      rw [filterMap_cons, requests, filterMap_cons, ih]
    next hturn =>
      have hnone : e.request? = none := by
        cases he with
        | stop | notify | response => rfl
        | request => exact absurd rfl hturn
      rw [requests, filterMap_cons, hnone]
      exact ih hrest

namespace Actor

/-! ### Orderly logs -/

/-- No turn starts before the one before it has come to its end. -/
def Orderly (log : List Deed) : Prop :=
  ∀ before e after, log = before ++ .start e :: after → (Progress.of before).current = none

theorem orderly_nil :
  Orderly []
  := by
  intro before e _ h
  cases before <;> cases h

theorem Orderly.append (h : Orderly log) (hmore : ∀ before e after, more = before ++ .start e :: after →
      (Progress.of (log ++ before)).current = none) :
  Orderly (log ++ more)
  := by
  intro before e after hsplit
  rcases append_eq_append_cons hsplit with ⟨between, hlog⟩ | ⟨between, rfl, hrest⟩
  · exact h before e between hlog
  · exact hmore between e after hrest

theorem Orderly.append_of_notMem (h : Orderly log) (hmore : ∀ e, Deed.start e ∉ more) :
  Orderly (log ++ more)
  := by
  apply h.append
  rintro _ e _ rfl
  cases hmore e (by simp)

theorem Orderly.append_start (h : Orderly log) (hcurrent : (Progress.of log).current = none) (e : Envelope) :
  Orderly (log ++ [.start e])
  := by
  apply h.append
  intro before _ _ hsplit
  cases before with
  | nil =>
    rw [append_nil]
    exact hcurrent
  | cons => simp at hsplit

/-! ### Actors that go on -/

/-- What has come of the deeds of an actor that goes on, with this turn under way and these envelopes put
aside. -/
structure Kept (p : Progress) (c : Option Envelope) (deferred : List Envelope) : Prop where
  current : p.current = c
  begun : p.begun = p.handled ++ c.toList
  turns : p.begun ++ deferred = turns p.taken
  answered : p.answered = requests p.handled
  taken : ∀ e ∈ p.taken, e.Proper ∧ e.isControl = false
  halts : p.halts = []

namespace Kept

theorem initial :
  Kept {} none [] where
  current := rfl
  begun := rfl
  turns := rfl
  answered := rfl
  taken := forall_mem_nil _
  halts := rfl

theorem take (h : Kept p c deferred) (he : e.Proper) (hcontrol : e.isControl = false) :
  Kept (p.next (.take e)) c (deferred ++ ActorLang.turns [e]) where
  current := h.current
  begun := h.begun
  turns := by
    rw [Progress.next, turns_append, ← h.turns, append_assoc]
  answered := h.answered
  taken := by
    rw [Progress.next, forall_mem_append, forall_mem_singleton]
    exact ⟨h.taken, he, hcontrol⟩
  halts := h.halts

theorem takeResponse (h : Kept p c deferred) (reply : Portable) (id : Nat) :
  Kept (p.next (.take (.response reply id))) c deferred
  := by
  rw [← append_nil deferred]
  exact h.take (.response reply id) rfl

theorem start (h : Kept p none (e :: deferred)) :
  Kept (p.next (.start e)) (some e) deferred where
  current := rfl
  begun := by
    rw [Progress.next, h.begun, Option.toList_none, append_nil]
    rfl
  turns := by
    rw [Progress.next, ← h.turns, append_assoc]
    rfl
  answered := h.answered
  taken := h.taken
  halts := h.halts

theorem finish (h : Kept p (some e) deferred) (hhow : how ≠ .stopped) :
  Kept ({ p with answered := p.answered ++ e.request?.toList }.next (.finish how)) none deferred where
  current := rfl
  begun := by
    rw [Progress.next, h.begun, if_neg hhow, h.current, Option.toList_none, append_nil]
  turns := h.turns
  answered := by
    rw [Progress.next, if_neg hhow, h.current, requests_append, ← h.answered]
    rfl
  taken := h.taken
  halts := h.halts

end Kept

/-! ### Actors that stop -/

theorem foldl_refusals_next (id : ActorId) (p : Progress) (envelopes : List Envelope) :
  (refusals id envelopes).foldl Progress.next p = { p with answered := p.answered ++ requests envelopes }
  := by
  rw [refusals, requests]
  induction envelopes.filterMap (·.request?) generalizing p with
  | nil => simp
  | cons r _ ih =>
    rw [map_cons, foldl_cons, ih]
    simp [Progress.next]

/-- Of the requests that were taken, those put aside are left to answer, and the turns that have started are
the first of those that were taken. -/
structure Answered (p : Progress) (deferred : List Envelope) : Prop where
  answered : p.answered ++ requests deferred = requests p.taken
  begun : p.begun <+: turns p.taken

namespace Answered

/-- The actor stops in the middle of a turn: the request of the turn is to be answered, too. -/
theorem of_kept (h : Kept p c deferred) :
  Answered { p with answered := p.answered ++ requests c.toList } deferred where
  answered := by
    have htaken : requests (turns p.taken) = requests p.taken :=
      requests_turns fun e he => (h.taken e he).1
    rw [h.answered, ← htaken, ← h.turns, h.begun, ← requests_append, ← requests_append]
  begun := ⟨deferred, h.turns⟩

theorem of_kept_none (h : Kept p none deferred) :
  Answered p deferred
  := by
  have hanswered := of_kept h
  simpa [requests] using hanswered

theorem takeStop (h : Answered p deferred) :
  Answered (p.next (.take .stop)) deferred where
  answered := by
    rw [Progress.next, requests_append, h.answered]
    exact (append_nil _).symm
  begun := by
    rw [Progress.next, turns_append]
    exact h.begun.trans (prefix_append _ _)

theorem close (h : Answered p deferred) (id : ActorId) (queue : List Envelope) :
  Answered ((Deed.close queue :: refusals id (deferred ++ queue)).foldl Progress.next p) []
  := by
  rw [foldl_cons, foldl_refusals_next]
  constructor
  · simp only [Progress.next]
    rw [requests_append, requests_append, ← h.answered]
    simp [requests]
  · simp only [Progress.next]
    rw [turns_append]
    exact h.begun.trans (prefix_append _ _)

end Answered

/-! ### Being told to stop -/

/-- The envelopes for turns that were taken before the actor was told to stop: first those that were handled,
then the one whose turn was under way, then others only if there was one.  Nothing more is handled. -/
def Drained (before after : Progress) : Prop :=
  after.handled = before.handled ∧
  ∃ left, turns before.taken = before.handled ++ before.current.toList ++ left ∧ (before.current = none → left = [])

/-- Whenever the actor was told to stop and did not halt over it. -/
def Stops (log : List Deed) : Prop :=
  ∀ before e after, log = before ++ .take e :: after → e.isControl = true →
    (Progress.of log).halts = [] → Drained (Progress.of before) (Progress.of log)

theorem prefix_foldl_next (p : Progress) (more : List Deed) :
  p.taken <+: (more.foldl Progress.next p).taken ∧ p.halts <+: (more.foldl Progress.next p).halts
  := by
  induction more generalizing p with
  | nil => exact ⟨prefix_rfl, prefix_rfl⟩
  | cons d _ ih =>
    have hnext : p.taken <+: (p.next d).taken ∧ p.halts <+: (p.next d).halts := by
      cases d <;> simp [Progress.next]
    exact ⟨hnext.1.trans (ih _).1, hnext.2.trans (ih _).2⟩

section Stops

theorem mem_taken (h : log = before ++ .take e :: after) :
  e ∈ (Progress.of log).taken
  := by
  rw [h, Progress.of_append]
  apply (prefix_foldl_next _ after).1.subset
  simp [Progress.next]

theorem Stops.append (h : Stops log) (hmore : ∀ e, Deed.take e ∉ more)
    (hhandled : (Progress.of (log ++ more)).handled = (Progress.of log).handled) :
  Stops (log ++ more)
  := by
  intro before e _ hsplit hcontrol hhalts
  have hnone : (Progress.of log).halts = [] := by
    rw [Progress.of_append] at hhalts
    exact prefix_nil.mp (hhalts ▸ (prefix_foldl_next (Progress.of log) more).2)
  rcases append_eq_append_cons hsplit with ⟨between, hlog⟩ | ⟨between, rfl, hrest⟩
  · obtain ⟨hsame, hleft⟩ := h before e between hlog hcontrol hnone
    exact ⟨hhandled.trans hsame, hleft⟩
  · cases hmore e (by simp [hrest])

theorem stops_take (h : Kept (Progress.of log) c deferred) (hdeferred : c = none → deferred = []) (e : Envelope) :
  Stops (log ++ [.take e])
  := by
  intro _ e' _ hsplit hcontrol _
  rcases append_eq_append_cons hsplit with ⟨between, hlog⟩ | ⟨between, rfl, hrest⟩
  · cases hcontrol.symm.trans (h.taken e' (mem_taken hlog)).2
  · cases between with
    | cons => simp at hrest
    | nil =>
      rw [append_nil, Progress.of_append]
      refine ⟨rfl, deferred, ?_, ?_⟩
      · rw [h.current, ← h.begun, h.turns]
      · rw [h.current]
        exact hdeferred

end Stops

end Actor

end ActorLang
