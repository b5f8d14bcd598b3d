import ActorLang.Proofs.Actor.Progress

/-!
# Lives of actors

Between the steps of an actor others put envelopes into its mailbox and change the world.  `Life`
keeps an actor together with the world and the log of its deeds, and `Life.Reaches` are all ways in
which its life can go on.  The invariant `Sound`: the log says what is under way and what has been
put aside, and when the actor has stopped, nothing is left unanswered.
-/

namespace ActorLang

open List

/-! ### Mailboxes that grow -/

/-- Envelopes of some kind have been put into the mailbox of an actor, but none if it is closed. -/
def Grows (P : Envelope → Prop) (id : ActorId) (boxes boxes' : Array Mailbox) : Prop :=
  ∀ box, boxes[id]? = some box → ∃ more, (∀ e ∈ more, P e) ∧ (box.isOpen = false → more = []) ∧
    boxes'[id]? = some { box with queue := box.queue ++ more }

variable {queue : List Envelope} {id actor : ActorId} {e : Envelope} {w w' : World} {more deeds log : List Deed}

namespace Grows

variable {P Q : Envelope → Prop} {boxes boxes' boxes'' : Array Mailbox}

theorem of_eq (h : boxes'[id]? = boxes[id]?) :
  Grows P id boxes boxes'
  := by
  intro _ hbox
  refine ⟨[], forall_mem_nil _, fun _ => rfl, ?_⟩
  rw [h, hbox, append_nil]

section

variable (h : Grows P id boxes boxes')

include h

theorem mono (hP : ∀ e, P e → Q e) :
  Grows Q id boxes boxes'
  := by
  intro box hbox
  obtain ⟨more, hmore, hrest⟩ := h box hbox
  exact ⟨more, fun e he => hP e (hmore e he), hrest⟩

theorem trans (h' : Grows P id boxes' boxes'') :
  Grows P id boxes boxes''
  := by
  intro box hbox
  obtain ⟨more, hproper, hclosed, hbox'⟩ := h box hbox
  obtain ⟨more', hproper', hclosed', hbox''⟩ := h' _ hbox'
  refine ⟨more ++ more', forall_mem_append.mpr ⟨hproper, hproper'⟩, fun hshut => ?_, ?_⟩
  · rw [hclosed hshut, hclosed' hshut, append_nil]
  · rw [hbox'', append_assoc]

theorem of_closed (hbox : boxes[id]? = some ⟨false, queue⟩) :
  boxes'[id]? = some ⟨false, queue⟩
  := by
  obtain ⟨_, -, hclosed, hbox'⟩ := h _ hbox
  rw [hbox', hclosed rfl, append_nil]

end

end Grows

theorem Delivered.grows {P : Envelope → Prop} {boxes boxes' : Array Mailbox} (h : Delivered boxes actor e boxes') (he : P e) :
  Grows P id boxes boxes'
  := by
  obtain ⟨_, hbox, rfl⟩ := h
  by_cases hid : actor = id
  · subst hid
    intro _ hbox'
    cases hbox.symm.trans hbox'
    refine ⟨[e], forall_mem_singleton.mpr he, nofun, ?_⟩
    rw [Array.getElem?_setIfInBounds_self_of_lt (Array.getElem?_eq_some_iff.mp hbox).1]
  · apply Grows.of_eq
    rw [Array.getElem?_setIfInBounds_ne hid]

theorem Correspondence.Act.grows {c c' : Correspondence} (h : c.Act c') (id : ActorId) :
  Grows (fun e => e.Proper ∧ e.isTurn = true) id c.boxes c'.boxes
  := by
  cases h with
  | quiet | refused => exact .of_eq rfl
  | spawn =>
    intro box hbox
    refine Grows.of_eq ?_ box hbox
    rw [Array.getElem?_push, if_neg (Nat.ne_of_lt (Array.getElem?_eq_some_iff.mp hbox).1)]
  | tell hp h => exact h.grows ⟨.notify hp, rfl⟩
  | ask _ hp h => exact h.grows ⟨.request hp _ _, rfl⟩

theorem Actor.grows_worked (a : Actor) (w : World) (id : ActorId) :
  Grows (fun e => e.Proper ∧ e.isTurn = true) id w.mailboxes (a.worked w).mailboxes
  := by
  rw [Actor.worked]
  split
  · exact (Session.act_step ⟨a.machine, w⟩).grows id
  · exact .of_eq rfl

theorem grows_post (w : World) (actor : ActorId) (he : e.Proper) (id : ActorId) :
  Grows Envelope.Proper id w.mailboxes (Actor.post w actor e).mailboxes
  := by
  rw [Actor.post]
  cases hsend : w.send? actor e with
  | none => exact .of_eq rfl
  | some => exact (World.delivered_of_send? hsend).grows he

theorem grows_refuse (me id : ActorId) (w : World) (envelopes : List Envelope) :
  Grows Envelope.Proper id w.mailboxes (Actor.refuse me w envelopes).mailboxes
  := by
  fun_induction Actor.refuse me w envelopes with
  | case1 => exact .of_eq rfl
  | case2 w e _ requester _ _ _ ih => exact (grows_post w requester (.response _ _) id).trans ih
  | case3 w e _ _ ih => exact ih

/-! ### Taking from a mailbox -/

namespace World

theorem receive?_eq_some (h : w.receive? id = some (e, w')) :
  ∃ isOpen queue, w.mailboxes[id]? = some ⟨isOpen, e :: queue⟩ ∧ w'.mailboxes[id]? = some ⟨isOpen, queue⟩
  := by
  rw [receive?] at h
  split at h
  case h_2 => cases h
  case h_1 box hbox =>
    obtain ⟨isOpen, queue⟩ := box
    cases queue with
    | nil => cases h
    | cons _ rest =>
      cases h
      refine ⟨isOpen, rest, hbox, ?_⟩
      rw [Array.getElem?_setIfInBounds_self_of_lt (Array.getElem?_eq_some_iff.mp hbox).1]

theorem close_of_mailbox {isOpen : Bool} (h : w.mailboxes[id]? = some ⟨isOpen, queue⟩) :
  (w.close id).1 = queue ∧ (w.close id).2.mailboxes[id]? = some ⟨false, []⟩
  := by
  rw [close, h]
  refine ⟨rfl, ?_⟩
  rw [Array.getElem?_setIfInBounds_self_of_lt (Array.getElem?_eq_some_iff.mp h).1]

end World

/-! ### Sound logs -/

/-- The task goes with the turn that is under way. -/
def Task.Fits (c : Option Envelope) (t : Task) : Prop :=
  match c with
  | none => ∃ result, t = .configure result
  | some e => t.Serves e

/-- What the actor is doing goes with the turn that is under way. -/
def Phase.Fits (c : Option Envelope) : Phase → Prop
  | running t | waiting t => t.Fits c
  | idle => c = none
  | finished _ | stopped => False

/-- A deed that neither takes an envelope nor starts a turn. -/
def Deed.isClosing : Deed → Bool
  | .take _ | .start _ => false
  | .finish _ | .answer _ _ _ | .halt _ | .close _ => true

namespace Actor

def Receives (id : ActorId) (w : World) : Prop :=
  ∃ queue, w.mailboxes[id]? = some ⟨true, queue⟩ ∧ ∀ e ∈ queue, e.Proper

theorem Receives.grows (h : Receives id w) (hgrows : Grows Envelope.Proper id w.mailboxes w'.mailboxes) :
  Receives id w'
  := by
  obtain ⟨_, hbox, hqueue⟩ := h
  obtain ⟨_, hmore, -, hbox'⟩ := hgrows _ hbox
  exact ⟨_, hbox', forall_mem_append.mpr ⟨hqueue, hmore⟩⟩

theorem Receives.receive? (h : Receives id w) (hreceive : w.receive? id = some (e, w')) :
  e.Proper ∧ Receives id w'
  := by
  obtain ⟨_, hbox, hqueue⟩ := h
  obtain ⟨_, rest, hbox', hrest⟩ := World.receive?_eq_some hreceive
  cases hbox.symm.trans hbox'
  obtain ⟨he, hproper⟩ := forall_mem_cons.mp hqueue
  exact ⟨he, rest, hrest, hproper⟩

/-- The actor goes on, with this turn under way. -/
structure Going (a : Actor) (w : World) (log : List Deed) (c : Option Envelope) : Prop where
  orderly : Orderly log
  receives : Receives a.id w
  kept : Kept (Progress.of log) c a.deferred

/-- The log says what the actor is doing and has done. -/
inductive Sound (a : Actor) (w : World) (log : List Deed) : Prop where
  | going {c} (h : Going a w log c) (hphase : a.phase.Fits c)
  | stopped (hphase : a.phase = .stopped) (horderly : Orderly log)
      (hbox : w.mailboxes[a.id]? = some ⟨false, []⟩) (hanswered : Answered (Progress.of log) [])
      (hstops : Stops log)

variable {a a' : Actor} {c : Option Envelope} {t : Task} {r : Actor × World × Events}

/-! ### Stopping -/

theorem isClosing_stopDeeds (a : Actor) (w : World) :
  ∀ d ∈ a.stopDeeds w, d.isClosing = true
  := by
  rw [stopDeeds, forall_mem_cons]
  refine ⟨rfl, fun d hd => ?_⟩
  obtain ⟨r, -, rfl⟩ := mem_map.mp hd
  rfl

theorem isClosing_haltDeeds (a : Actor) (w : World) (report : HaltReport) :
  ∀ d ∈ a.haltDeeds w report, d.isClosing = true
  := forall_mem_cons.mpr ⟨rfl, a.isClosing_stopDeeds w⟩

theorem isClosing_endTaskDeeds (a : Actor) (w : World) (t : Task) (e : TurnEnd) :
  ∀ d ∈ a.endTaskDeeds w t e, d.isClosing = true
  := by
  have hnil : ∀ d ∈ ([] : List Deed), d.isClosing = true := forall_mem_nil _
  cases t with
  | program => exact hnil
  | configure result =>
    cases e with
    | done =>
      simp only [endTaskDeeds]
      cases a.handlersOf result with
      | ok => exact hnil
      | error => apply isClosing_haltDeeds
    | suspended | halted | stopped => apply isClosing_haltDeeds
  | ask =>
    refine forall_mem_cons.mpr ⟨rfl, forall_mem_cons.mpr ⟨rfl, ?_⟩⟩
    cases e with
    | done | suspended | halted => exact hnil
    | stopped => apply isClosing_stopDeeds
  | tell =>
    refine forall_mem_cons.mpr ⟨rfl, ?_⟩
    cases e with
    | done | suspended => exact hnil
    | halted => apply isClosing_haltDeeds
    | stopped => apply isClosing_stopDeeds

theorem Orderly.append_closing (h : Orderly log) (hmore : ∀ d ∈ more, d.isClosing = true) :
  Orderly (log ++ more)
  := by
  apply h.append_of_notMem
  intro e he
  cases hmore _ he

theorem Stops.append_closing (h : Stops log) (hmore : ∀ d ∈ more, d.isClosing = true)
    (hhandled : (more.foldl Progress.next (Progress.of log)).handled = (Progress.of log).handled) :
  Stops (log ++ more)
  := by
  apply h.append
  · intro e he
    cases hmore _ he
  · rw [Progress.of_append, hhandled]

section

variable (horderly : Orderly log) (hreceives : Receives a.id w) (hanswered : Answered (Progress.of log) a.deferred)

include horderly hreceives hanswered

theorem sound_stop (hstops : Stops log) :
  Sound (a.stop w).1 (a.stop w).2 (log ++ a.stopDeeds w)
  := by
  refine .stopped rfl (horderly.append_closing (a.isClosing_stopDeeds w)) ?_ ?_ ?_
  · obtain ⟨_, hbox, -⟩ := hreceives
    exact (grows_refuse a.id a.id _ _).of_closed (World.close_of_mailbox hbox).2
  · rw [Progress.of_append]
    exact hanswered.close a.id _
  · apply hstops.append_closing (a.isClosing_stopDeeds w)
    rw [stopDeeds, foldl_cons, foldl_refusals_next]
    rfl

theorem sound_halt (report : HaltReport) :
  Sound (a.halt w report).1 (a.halt w report).2.1 (log ++ a.haltDeeds w report)
  := by
  have hlog : log ++ a.haltDeeds w report = (log ++ [.halt report]) ++ a.stopDeeds w := by
    rw [append_assoc]
    rfl
  rw [hlog]
  apply sound_stop _ hreceives
  · rw [Progress.of_append]
    exact ⟨hanswered.answered, hanswered.begun⟩
  · refine fun _ _ _ _ _ hhalts => absurd hhalts ?_
    rw [Progress.of_append]
    simp [Progress.next]
  · apply horderly.append_of_notMem
    simp

end

/-! ### The end of a task -/

section

variable (h : Going a w log c)

include h

theorem Going.idle (hdeeds : ∀ d ∈ deeds, d.isClosing = true)
    (hkept : Kept (deeds.foldl Progress.next (Progress.of log)) none a.deferred)
    (ha : a'.id = a.id ∧ a'.deferred = a.deferred) (hphase : a'.phase = .idle)
    (hw : Grows Envelope.Proper a.id w.mailboxes w'.mailboxes) :
  Sound a' w' (log ++ deeds)
  := by
  refine .going (c := none) ⟨h.orderly.append_closing hdeeds, ?_, ?_⟩ ?_
  · rw [ha.1]
    exact h.receives.grows hw
  · rw [Progress.of_append, ha.2]
    exact hkept
  · rw [hphase]
    rfl

theorem sound_endTask (hfits : t.Fits c) {e : TurnEnd} (he : e ≠ .stopped) :
  Sound (a.endTask w t e).1 (a.endTask w t e).2.1 (log ++ a.endTaskDeeds w t e)
  := by
  have hhalt (hnone : c = none) (report : HaltReport) :
      Sound (a.halt w report).1 (a.halt w report).2.1 (log ++ a.haltDeeds w report) :=
    sound_halt h.orderly h.receives (.of_kept_none (hnone ▸ h.kept)) report
  cases c with
  | none =>
    obtain ⟨result, rfl⟩ := hfits
    cases e with
    | stopped => cases he rfl
    | suspended | halted => apply hhalt rfl
    | done =>
      simp only [endTask, endTaskDeeds]
      cases a.handlersOf result with
      | error => apply hhalt rfl
      | ok =>
        exact h.idle (forall_mem_nil _) h.kept ⟨rfl, rfl⟩ rfl (.of_eq rfl)
  | some turn =>
    cases t with
    | program | configure => cases hfits
    | ask requester request result =>
      have hrequest : turn.request? = some (requester, request) := hfits
      have hgrows := grows_post w requester (.response (a.turnReply result e) request) a.id
      have hkept := h.kept.finish he
      rw [hrequest] at hkept
      cases e with
      | stopped => cases he rfl
      | done | halted | suspended =>
        exact h.idle (a.isClosing_endTaskDeeds w _ _) hkept ⟨rfl, rfl⟩ rfl hgrows
    | tell =>
      have hrequest : turn.request? = none := hfits
      have hkept := h.kept.finish he
      rw [hrequest, Option.toList_none, append_nil] at hkept
      cases e with
      | stopped => cases he rfl
      | done | suspended =>
        exact h.idle (a.isClosing_endTaskDeeds w _ _) hkept ⟨rfl, rfl⟩ rfl (.of_eq rfl)
      | halted v =>
        have hanswered : Answered (Progress.of (log ++ [.finish (.halted v)])) a.deferred := by
          rw [Progress.of_append]
          exact .of_kept_none hkept
        have hlog : log ++ a.endTaskDeeds w .tell (.halted v) =
            (log ++ [.finish (.halted v)]) ++ a.haltDeeds w (a.haltReport v) := by
          rw [append_assoc]
          rfl
        rw [hlog]
        apply sound_halt (h.orderly.append_closing _) h.receives hanswered
        simp [Deed.isClosing]

theorem sound_interrupted (hfits : t.Fits c) :
  Sound (a.endTask w t .stopped).1 (a.endTask w t .stopped).2.1 (log ++ .take .stop :: a.endTaskDeeds w t .stopped)
  := by
  have horderly : Orderly (log ++ [.take .stop]) := h.orderly.append_of_notMem (by simp)
  have hanswered := (Answered.of_kept h.kept).takeStop
  cases c with
  | none =>
    obtain ⟨_, rfl⟩ := hfits
    rw [append_cons]
    apply sound_halt horderly h.receives
    rw [Progress.of_append]
    exact (Answered.of_kept_none h.kept).takeStop
  | some turn =>
    rw [Option.toList_some, requests_singleton] at hanswered
    -- the task is brought to its end, and then the actor stops
    have hrest (ds : List Deed) {w' : World} (hds : ∀ d ∈ ds, d.isClosing = true) (hreceives : Receives a.id w')
        (hanswered : Answered (ds.foldl Progress.next (Progress.of (log ++ [.take .stop]))) a.deferred)
        (hhandled : (ds.foldl Progress.next (Progress.of (log ++ [.take .stop]))).handled =
          (Progress.of (log ++ [.take .stop])).handled) :
        Sound (a.abandon.stop w').1 (a.abandon.stop w').2 (log ++ .take .stop :: (ds ++ a.abandon.stopDeeds w')) := by
      rw [append_cons, ← append_assoc]
      refine sound_stop (horderly.append_closing hds) hreceives ?_
        ((stops_take h.kept (by simp) .stop).append_closing hds hhandled)
      rw [Progress.of_append]
      exact hanswered
    cases t with
    | program | configure => cases hfits
    | ask requester request =>
      have hrequest : turn.request? = some (requester, request) := hfits
      have hgrows := grows_post w requester (.response (stoppedReply a.id) request) a.id
      rw [hrequest] at hanswered
      refine hrest [.answer requester request (stoppedReply a.id), .finish .stopped] (by simp [Deed.isClosing])
        (h.receives.grows hgrows) ?_ (by simp [Progress.next])
      rw [Progress.of_append]
      exact ⟨hanswered.answered, hanswered.begun⟩
    | tell =>
      have hrequest : turn.request? = none := hfits
      rw [hrequest, Option.toList_none, append_nil] at hanswered
      refine hrest [.finish .stopped] (by simp [Deed.isClosing]) h.receives ?_ (by simp [Progress.next])
      rw [Progress.of_append]
      exact ⟨hanswered.answered, hanswered.begun⟩

/-! ### Steps -/

theorem Rested.sound {outcome : Outcome} (hr : Rested a w t outcome r deeds) (hfits : t.Fits c) :
  Sound r.1 r.2.1 (log ++ deeds)
  := by
  cases hr with
  | waits =>
    rw [append_nil]
    exact .going ⟨h.orderly, h.receives, h.kept⟩ hfits
  | ends hends => exact sound_endTask h hfits (by cases hends <;> simp)

theorem Awaited.sound (hr : Awaited a w t e r deeds) (hfits : t.Fits c) (hphase : a.phase = .waiting t)
    (he : e.Proper) :
  Sound r.1 r.2.1 (log ++ .take e :: deeds)
  := by
  have horderly : Orderly (log ++ [.take e]) := h.orderly.append_of_notMem (by simp)
  cases hr with
  | stop hstop =>
    cases he with
    | stop => exact sound_interrupted h hfits
    | notify | request | response => cases hstop
  | aside hcontrol hturn =>
    refine .going (c := c) ⟨horderly, h.receives, ?_⟩ ?_
    · rw [Progress.of_append]
      simpa [turns, hturn] using h.kept.take he hcontrol
    · rw [hphase]
      exact hfits
  | response p id =>
    refine .going ⟨horderly, h.receives, ?_⟩ hfits
    rw [Progress.of_append]
    exact h.kept.takeResponse p id

end

theorem Accepted.sound_turn (hr : Accepted a w e r deeds) (h : Orderly log) (hreceives : Receives a.id w)
    (hkept : Kept (Progress.of log) none (e :: a.deferred)) (he : e.Proper) (hturn : e.isTurn = true) :
  Sound r.1 r.2.1 (log ++ deeds)
  := by
  cases hr with
  | starts _ ht =>
    refine .going (c := some e) ⟨h.append_start hkept.current e, hreceives, ?_⟩ ht
    rw [Progress.of_append]
    exact hkept.start
  | stop hstop =>
    cases he with
    | stop => cases hturn
    | notify | request | response => cases hstop
  | response => cases hturn
  | lost _ hmessage hlost =>
    -- a message for a turn is a snapshot, which can be taken in
    cases he with
    | stop | response => cases hturn
    | notify hp | request hp =>
      cases hmessage
      obtain ⟨v, hv⟩ := hp.importValue a.store
      cases hlost.symm.trans hv

theorem Accepted.sound (hr : Accepted a w e r deeds) (h : Going a w log none) (hphase : a.phase = .idle)
    (hdeferred : a.deferred = []) (he : e.Proper) :
  Sound r.1 r.2.1 (log ++ .take e :: deeds)
  := by
  have horderly : Orderly (log ++ [.take e]) := h.orderly.append_of_notMem (by simp)
  rw [append_cons]
  by_cases hturn : e.isTurn = true
  · refine hr.sound_turn horderly h.receives ?_ he hturn
    have hkept := h.kept.take he (by cases he <;> first | rfl | cases hturn)
    rw [Progress.of_append]
    simpa [hdeferred, turns, hturn] using hkept
  cases hr with
  | starts h | lost h => exact absurd h hturn
  | stop hstop =>
    cases he with
    | notify | request | response => cases hstop
    | stop =>
      apply sound_stop horderly h.receives
      · rw [Progress.of_append]
        exact (Answered.of_kept_none h.kept).takeStop
      · exact stops_take h.kept (fun _ => hdeferred) .stop
  | response p id =>
    rw [append_nil]
    refine .going (c := none) ⟨horderly, h.receives, ?_⟩ ?_
    · rw [Progress.of_append]
      exact h.kept.takeResponse p id
    · rw [hphase]
      rfl

theorem Sound.step (h : Sound a w log) :
  Sound (a.step w).1 (a.step w).2.1 (log ++ a.deeds w)
  := by
  have hstepped := a.stepped_step w
  generalize a.step w = r, a.deeds w = deeds at hstepped ⊢
  cases h with
  | stopped hphase horderly hclosed hanswered hstops =>
    cases hstepped with
    | nothing =>
      rw [append_nil]
      exact .stopped hphase horderly hclosed hanswered hstops
    | going h | rest h | await h | deferred h | accept h => cases hphase.symm.trans h
  | @going c h hfits =>
  have hgrows := (a.grows_worked w a.id).mono fun _ he => he.1
  cases hstepped with
  | nothing =>
    rw [append_nil]
    exact .going h hfits
  | going hphase hexecuted =>
    rw [worked_running hphase, hexecuted] at hgrows
    rw [append_nil]
    exact .going ⟨h.orderly, h.receives.grows hgrows, h.kept⟩ hfits
  | rest hphase hexecuted _ hrested =>
    rw [worked_running hphase, hexecuted] at hgrows
    rw [hphase] at hfits
    exact Rested.sound (a := a.rested _) ⟨h.orderly, h.receives.grows hgrows, h.kept⟩ hrested hfits
  | await hphase hreceive _ hawaited =>
    obtain ⟨hproper, hreceives⟩ := h.receives.receive? hreceive
    rw [hphase] at hfits
    exact hawaited.sound ⟨h.orderly, hreceives, h.kept⟩ hfits hphase hproper
  | accept hphase hdeferred hreceive _ haccepted =>
    rw [hphase] at hfits
    cases hfits
    obtain ⟨hproper, hreceives⟩ := h.receives.receive? hreceive
    exact haccepted.sound ⟨h.orderly, hreceives, h.kept⟩ hphase hdeferred hproper
  | @deferred e deferred _ _ hphase hdeferred _ haccepted =>
    rw [hphase] at hfits
    cases hfits
    have hmem : e ∈ turns (Progress.of log).taken := by simp [← h.kept.turns, hdeferred]
    obtain ⟨htaken, hturn⟩ := mem_filter.mp hmem
    exact haccepted.sound_turn h.orderly h.receives (hdeferred ▸ h.kept) (h.kept.taken e htaken).1 hturn

end Actor

end ActorLang
