import Mathlib
import ActorLang.Proofs.Actor.Lives

/-!
# Requests, turns and stops of an actor

How an actor treats what arrives, in every way in which its life can go: each accepted request is
answered once, turns follow arrivals, and a stop cuts a turn short that is under way.
-/

namespace ActorLang

open List

/-- The envelopes that wait in the mailbox of an actor. -/
def World.queue (w : World) (id : ActorId) : List Envelope := (w.mailboxes[id]?).elim [] (·.queue)

/-- An actor in its world, with the log of its deeds. -/
structure Life where
  actor : Actor
  world : World
  log : List Deed

variable {w' w : World} {d : Deed} {deeds log : List Deed} {x y x₀ : Life} {s : Spawn} {a : Actor}
  {e : Envelope} {id : ActorId}

namespace Life

def progress (x : Life) : Progress := .of x.log

/-- The envelopes that the mailbox has accepted, in the order of their arrival. -/
def arrived (x : Life) : List Envelope := x.progress.taken ++ x.world.queue x.actor.id

/-- The life of an actor that a machine asked for.  If it cannot start, it halts at once. -/
def spawned (maxSteps : Nat) (s : Spawn) (w : World) : Life :=
  match Actor.start maxSteps s with
  | (a, none) => ⟨a, w, []⟩
  | (a, some report) => ⟨(a.halt w report).1, (a.halt w report).2.1, a.haltDeeds w report⟩

def step (x : Life) : Life :=
  ⟨(x.actor.step x.world).1, (x.actor.step x.world).2.1, x.log ++ x.actor.deeds x.world⟩

/-- The life can come to this: the actor takes steps, and between them others send it envelopes. -/
inductive Reaches (x : Life) : Life → Prop where
  | refl : Reaches x x
  | step {y : Life} (h : Reaches x y) : Reaches x y.step
  | others {y : Life} {w : World} (h : Reaches x y)
      (hw : Grows Envelope.Proper y.actor.id y.world.mailboxes w.mailboxes) : Reaches x { y with world := w }

/-! ### Arrivals -/

theorem queue_of_mailbox {isOpen : Bool} {queue : List Envelope} (h : w.mailboxes[id]? = some ⟨isOpen, queue⟩) :
  w.queue id = queue
  := by
  rw [World.queue, h]
  rfl

theorem queue_initial {P : Envelope → Prop} (h : Grows P id w.mailboxes w'.mailboxes) :
  w.queue id <+: w'.queue id
  := by
  cases hbox : w.mailboxes[id]? with
  | none =>
    rw [World.queue, hbox]
    exact nil_prefix
  | some box =>
    obtain ⟨_, -, -, hbox'⟩ := h box hbox
    rw [World.queue, World.queue, hbox, hbox']
    exact prefix_append _ _

theorem arrived_deed (h : d.Possible id w) (p : Progress) :
  p.taken ++ w.queue id <+: (p.next d).taken ++ (d.onWorld id w).queue id
  := by
  cases d with
  | take =>
    obtain ⟨_, hreceive⟩ := h
    obtain ⟨_, _, hbox, hbox'⟩ := World.receive?_eq_some hreceive
    simp only [Deed.onWorld, hreceive, Progress.next]
    rw [queue_of_mailbox hbox, queue_of_mailbox hbox', append_assoc]
    exact prefix_rfl
  | close queue =>
    cases h
    simp only [Progress.next]
    cases hbox : w.mailboxes[id]? with
    | none =>
      rw [World.queue, hbox, append_assoc]
      exact (prefix_append_right_inj _).mpr nil_prefix
    | some =>
      rw [(World.close_of_mailbox hbox).1, queue_of_mailbox hbox]
      exact prefix_append _ _
  | answer requester request reply =>
    exact (prefix_append_right_inj _).mpr (queue_initial (grows_post w requester (.response reply request) id))
  | start | finish | halt => exact prefix_rfl

theorem arrived_deeds (h : Deed.AllPossible id w deeds) (p : Progress) :
  p.taken ++ w.queue id <+:
    (deeds.foldl Progress.next p).taken ++ (deeds.foldl (Deed.onWorld id) w).queue id
  := by
  induction deeds generalizing w p with
  | nil => exact prefix_rfl
  | cons d _ ih => exact (arrived_deed h.1 p).trans (ih h.2 _)

theorem arrived_step (x : Life) :
  x.arrived <+: x.step.arrived
  := by
  have haccounts := x.actor.accounts_step x.world
  have hworked := queue_initial (x.actor.grows_worked x.world x.actor.id)
  have hdeeds := arrived_deeds haccounts.possible x.progress
  rw [haccounts.world] at hdeeds
  rw [arrived, arrived, progress, progress, step, haccounts.id, Progress.of_append]
  exact ((prefix_append_right_inj _).mpr hworked).trans hdeeds

theorem Reaches.arrived (h : x.Reaches y) :
  x.arrived <+: y.arrived
  := by
  induction h with
  | refl => exact prefix_rfl
  | @step y _ ih => exact ih.trans y.arrived_step
  | others _ hw ih => exact ih.trans ((prefix_append_right_inj _).mpr (queue_initial hw))

/-! ### Lives of actors that were asked for -/

theorem start_cases (maxSteps : Nat) (s : Spawn) :
  (∃ m result, Actor.start maxSteps s =
    (Actor.work { id := s.actor, machine := m, phase := .idle } (.configure result), none)) ∨
  ∃ m report, Actor.start maxSteps s = ({ id := s.actor, machine := m, phase := .idle }, some report)
  := by
  rw [Actor.start]
  split
  · exact .inr ⟨_, _, rfl⟩
  · split
    · exact .inl ⟨_, _, rfl⟩
    · exact .inr ⟨_, _, rfl⟩

theorem sound_spawned (hw : Actor.Receives s.actor w) (maxSteps : Nat) :
  Actor.Sound (spawned maxSteps s w).actor (spawned maxSteps s w).world (spawned maxSteps s w).log
  := by
  rcases start_cases maxSteps s with ⟨m, result, hstart⟩ | ⟨m, report, hstart⟩
  · rw [spawned, hstart]
    exact .going ⟨Actor.orderly_nil, hw, .initial⟩ ⟨result, rfl⟩
  · rw [spawned, hstart]
    have hanswered : Actor.Answered (Progress.of []) [] := .of_kept_none .initial
    exact Actor.sound_halt Actor.orderly_nil hw hanswered report

theorem sound_others (h : Actor.Sound a w log) (hw : Grows Envelope.Proper a.id w.mailboxes w'.mailboxes) :
  Actor.Sound a w' log
  := by
  cases h with
  | going h hphase => exact .going ⟨h.orderly, h.receives.grows hw, h.kept⟩ hphase
  | stopped hphase horderly hbox hanswered hstops =>
    exact .stopped hphase horderly (hw.of_closed hbox) hanswered hstops

theorem Reaches.sound {maxSteps : Nat} (hx : (spawned maxSteps s w).Reaches x) (hw : Actor.Receives s.actor w) :
  Actor.Sound x.actor x.world x.log
  := by
  induction hx with
  | refl => exact sound_spawned hw maxSteps
  | step _ ih => exact ih.step
  | others _ hgrows ih => exact sound_others ih hgrows

end Life

/-! ### A life that is cut short -/

theorem Life.Reaches.iterate (h : x.Reaches y) (n : Nat) :
  x.Reaches (Life.step^[n] y)
  := by
  induction n generalizing y with
  | zero => exact h
  | succ n ih => exact ih h.step

/-- The body of an actor.  A turn for a notification asks the actor that the message refers to. -/
def askerBody : Kernel.Stmt :=
  .scope ["ask", "tell"] (.seq [.createProc ["m", "r"] (.bind (.ident "m") "r") "ask",
      .createProc ["m"] (.selectApply (.ident "m") [.lit (.str "ask")] [.lit (.int32 1)]) "tell",
      .createTuple (some (.lit (.str "handlers"))) [.ident "ask", .ident "tell"] "out"])

def asker : Spawn :=
  ⟨1, { procs := #[⟨["out"], askerBody, []⟩], cfgs := #[⟨0, []⟩] }, .scalar (.actorCfg 0)⟩

def third : Portable := ⟨{}, .scalar (.actor 2)⟩

/-- A notification, a request and another notification wait for the second actor, and then it is told to
stop. -/
def busyWorld : World :=
  { mailboxes := #[{}, ⟨true, [.notify third, .request third 7 0, .notify third, .stop]⟩, {}] }

/-- The actor has asked the third one, and waits for the response. -/
def asking : Life := Life.step^[11] (.spawned 0 asker busyWorld)

/-- The response has been sent, but before it comes the stop. -/
def cutShort : Life :=
  Life.step^[3] { asking with world := Actor.post asking.world 1 (.response third 0) }

theorem third_isSnapshot :
  third.IsSnapshot
  := ⟨{}, .scalar (.actor 2), by cbv⟩

theorem receives_busyWorld :
  Actor.Receives asker.actor busyWorld
  := by
  refine ⟨_, rfl, ?_⟩
  simp only [forall_mem_cons]
  exact ⟨.notify third_isSnapshot, .request third_isSnapshot 7 0, .notify third_isSnapshot, .stop, forall_mem_nil _⟩

theorem reaches_cutShort :
  (Life.spawned 0 asker busyWorld).Reaches cutShort
  := by
  refine (Life.Reaches.others (Life.Reaches.refl.iterate 11) ?_).iterate 3
  exact grows_post _ 1 (.response third 0) _

/-! ### Requests -/

namespace Actor

theorem Sound.answered (h : Sound a w log) :
  (Progress.of log).answered <+: requests (Progress.of log).taken
  := by
  cases h with
  | going h =>
    have hanswered := Answered.of_kept h.kept
    rw [← hanswered.answered, append_assoc]
    exact prefix_append _ _
  | stopped _ _ _ hanswered =>
    rw [← hanswered.answered]
    exact prefix_append _ _

theorem Sound.of_stopped (h : Sound a w log) (hphase : a.phase = .stopped) :
  (Progress.of log).answered = requests (Progress.of log).taken ∧ w.mailboxes[a.id]? = some ⟨false, []⟩
  := by
  cases h with
  | going _ hfits =>
    rw [hphase] at hfits
    cases hfits
  | stopped _ _ hbox hanswered =>
    refine ⟨?_, hbox⟩
    rw [← hanswered.answered]
    exact (append_nil _).symm

theorem Sound.begun (h : Sound a w log) :
  (Progress.of log).begun <+: turns (Progress.of log).taken ∧ Orderly log
  := by
  cases h with
  | @going c h => exact ⟨⟨a.deferred, h.kept.turns⟩, h.orderly⟩
  | stopped _ horderly _ hanswered => exact ⟨hanswered.begun, horderly⟩

theorem Sound.told {before after : List Deed} (h : Sound a w log)
    (hlog : log = before ++ .take e :: after) (he : e.isControl = true) :
  a.phase = .stopped ∧ Stops log
  := by
  cases h with
  | going h => cases he.symm.trans (h.kept.taken e (mem_taken hlog)).2
  | stopped hphase _ _ _ hstops => exact ⟨hphase, hstops⟩

end Actor

/-- Let an actor be asked for, whose mailbox is open.  However its life goes, the answers that it
has sent are, in this order, for the first of the requests that have arrived; when it has stopped
they are for all of them, and nothing more can arrive.  The answers are the only responses that a
step sends. -/
theorem requests_answered_once {maxSteps : Nat} {s : Spawn} {w : World} {x : Life}
    (hw : Actor.Receives s.actor w) (hx : (Life.spawned maxSteps s w).Reaches x) :
  x.progress.answered <+: requests x.arrived ∧
  (x.actor.phase = .stopped → x.progress.answered = requests x.arrived ∧
    x.world.mailboxes[x.actor.id]? = some ⟨false, []⟩) ∧
  x.step.world = (x.actor.deeds x.world).foldl (Deed.onWorld x.actor.id) (x.actor.worked x.world) ∧
  ∀ id, Grows (fun e => e.isResponse = false) id x.world.mailboxes (x.actor.worked x.world).mailboxes
  := by
  have hsound := hx.sound hw
  refine ⟨?_, fun hphase => ?_, (x.actor.accounts_step x.world).world.symm, fun id => ?_⟩
  · rw [Life.arrived, requests_append]
    exact hsound.answered.trans (prefix_append _ _)
  · obtain ⟨hanswered, hbox⟩ := hsound.of_stopped hphase
    refine ⟨?_, hbox⟩
    rw [Life.arrived, Life.queue_of_mailbox hbox, append_nil]
    exact hanswered
  · exact (x.actor.grows_worked x.world id).mono fun _ he => Envelope.isResponse_of_isTurn he.2

/-- The request that waited is answered when the actor stops. -/
theorem requests_answered_once_cutShort :
  cutShort.progress.answered = requests cutShort.arrived ∧ requests cutShort.arrived = [(0, 7)]
  := by
  have hphase : cutShort.actor.phase = .stopped := by
    cbv
  have hanswered : cutShort.progress.answered = [(0, 7)] := by
    cbv
  have h := ((requests_answered_once receives_busyWorld reaches_cutShort).2.1 hphase).1
  exact ⟨h, h ▸ hanswered⟩

/-! ### The order of turns -/

namespace Actor

theorem not_start_of_isClosing (h : ∀ d ∈ deeds, d.isClosing = true) (e : Envelope) :
  Deed.start e ∉ deeds
  := by
  intro he
  cases h _ he

theorem phase_of_start (h : Deed.start e ∈ a.deeds w) :
  a.phase = .idle
  := by
  have hstepped := a.stepped_step w
  generalize a.step w = r, a.deeds w = deeds at h hstepped
  cases hstepped with
  | nothing | going => cases h
  | rest _ _ _ hrested =>
    cases hrested with
    | waits => cases h
    | ends => cases not_start_of_isClosing (isClosing_endTaskDeeds _ _ _ _) e h
  | await _ _ _ hawaited =>
    rcases mem_cons.mp h with hd | hd
    · cases hd
    cases hawaited with
    | stop => cases not_start_of_isClosing (isClosing_endTaskDeeds _ _ _ _) e hd
    | response | aside => cases hd
  | deferred hphase | accept hphase => exact hphase

theorem Accepted.start_mem_iff {r : Actor × World × Events} (h : Accepted a w e r deeds) (hphase : a.phase = .idle) :
  (∃ e', Deed.start e' ∈ deeds) ↔ ∃ t, r.1.phase = .running t
  := by
  cases h with
  | stop =>
    refine iff_of_false (fun h => h.elim (not_start_of_isClosing (a.isClosing_stopDeeds w))) ?_
    rintro ⟨t, ⟨⟩⟩
  | starts => exact iff_of_true ⟨e, mem_singleton_self _⟩ ⟨_, rfl⟩
  | response | lost => simp [hphase]

/-- A step starts a turn exactly if the actor was between turns and sets to work. -/
theorem start_mem_deeds_iff (a : Actor) (w : World) :
  (∃ e, Deed.start e ∈ a.deeds w) ↔ a.phase = .idle ∧ ∃ t, (a.step w).1.phase = .running t
  := by
  by_cases hphase : a.phase = .idle
  · rw [and_iff_right hphase]
    have hstepped := a.stepped_step w
    generalize a.step w = r, a.deeds w = deeds at hstepped ⊢
    cases hstepped with
    | nothing => simp [hphase]
    | going h | rest h | await h => cases hphase.symm.trans h
    | deferred _ _ _ haccepted => exact haccepted.start_mem_iff hphase
    | accept _ _ _ _ haccepted =>
      simp only [mem_cons, reduceCtorEq, false_or]
      exact haccepted.start_mem_iff hphase
  · exact iff_of_false (fun h => hphase (h.elim fun _ => phase_of_start)) (fun h => hphase h.1)

end Actor

namespace Life

def program (id : ActorId) (m : Machine) (w : World) : Life := ⟨.program id m, w, []⟩

/-- Lives begin with a program, or with an actor that was asked for and whose mailbox is open. -/
inductive Begins : Life → Prop where
  | spawned (maxSteps : Nat) {s w} (hw : Actor.Receives s.actor w) : Begins (.spawned maxSteps s w)
  | program (id : ActorId) (m : Machine) (w : World) : Begins (.program id m w)

end Life

theorem Actor.ofProgram_step (h : a.phase.OfProgram) (w : World) :
  (a.step w).1.phase.OfProgram
  := by
  have hother (hphase : a.phase = .idle) : (a.step w).1.phase.OfProgram := by
    rcases h with h | h | ⟨_, h⟩ <;> cases h.symm.trans hphase
  have hstepped := a.stepped_step w
  generalize a.step w = r, a.deeds w = deeds at hother hstepped ⊢
  cases hstepped with
  | nothing | going => exact h
  | @rest t _ _ _ _ hphase _ _ hrested =>
    obtain rfl : t = .program := by
      rcases h with h | h | ⟨_, h⟩ <;> cases h.symm.trans hphase
      rfl
    cases hrested with
    | waits => exact .inr (.inl rfl)
    | ends => exact .inr (.inr ⟨_, rfl⟩)
  | @await t _ _ _ _ hphase _ _ hawaited =>
    obtain rfl : t = .program := by
      rcases h with h | h | ⟨_, h⟩ <;> cases h.symm.trans hphase
      rfl
    cases hawaited with
    | stop => exact .inr (.inr ⟨_, rfl⟩)
    | response => exact .inl rfl
    | aside => exact .inr (.inl hphase)
  | deferred hphase | accept hphase => exact hother hphase

namespace Life

theorem Reaches.ofProgram {id : ActorId} {m : Machine} {w : World} (hx : (program id m w).Reaches x) :
  x.actor.phase.OfProgram ∧ ∀ e, Deed.start e ∉ x.log
  := by
  induction hx with
  | refl => exact ⟨.inl rfl, nofun⟩
  | @step y _ ih =>
    obtain ⟨hphase, hlog⟩ := ih
    refine ⟨Actor.ofProgram_step hphase y.world, fun e he => ?_⟩
    rcases mem_append.mp he with he | he
    · exact hlog e he
    · rcases hphase with h | h | ⟨_, h⟩ <;> cases h.symm.trans (Actor.phase_of_start he)
  | others _ _ ih => exact ih

theorem begun_next {p : Progress} (h : ∀ e, d ≠ .start e) :
  (p.next d).begun = p.begun
  := by
  cases d with
  | start e => cases h e rfl
  | take | finish | answer | halt | close => rfl

theorem begun_of_notMem (h : ∀ e, Deed.start e ∉ log) :
  (Progress.of log).begun = []
  := by
  induction log using reverseRecOn with
  | nil => rfl
  | append_singleton _ d ih =>
    simp only [mem_append, mem_singleton, not_or] at h
    rw [Progress.of_append, foldl_cons, foldl_nil, begun_next fun e he => (h e).2 he.symm]
    exact ih fun e => (h e).1

theorem Reaches.begun (hx : x₀.Reaches x) (h₀ : x₀.Begins) :
  x.progress.begun <+: turns x.progress.taken ∧ Actor.Orderly x.log
  := by
  cases h₀ with
  | spawned _ hw => exact (hx.sound hw).begun
  | program =>
    obtain ⟨-, hlog⟩ := hx.ofProgram
    refine ⟨?_, Actor.orderly_nil.append_of_notMem hlog⟩
    rw [progress, begun_of_notMem hlog]
    exact nil_prefix

end Life

/-- However the life of an actor goes, the turns that it has started are, in this order, those of the first of
the requests and notifications that have arrived, and no turn has started before the one before it had come to
its end.  What arrives later comes after what has arrived.  A turn is noted as started exactly when the actor
is between turns and sets to work. -/
theorem turns_follow_arrivals {x₀ x : Life} (h₀ : x₀.Begins) (hx : x₀.Reaches x) :
  x.progress.begun <+: turns x.arrived ∧ Actor.Orderly x.log ∧
  (∀ y, x.Reaches y → x.arrived <+: y.arrived) ∧
  ((∃ e, Deed.start e ∈ x.actor.deeds x.world) ↔
    x.actor.phase = .idle ∧ ∃ t, x.step.actor.phase = .running t)
  := by
  obtain ⟨hbegun, horderly⟩ := hx.begun h₀
  refine ⟨?_, horderly, fun y hy => hy.arrived, x.actor.start_mem_deeds_iff x.world⟩
  rw [Life.arrived, turns_append]
  exact hbegun.trans (prefix_append _ _)

/-- The first notification has got its turn, the request and the other notification have not. -/
theorem turns_follow_arrivals_cutShort :
  cutShort.progress.begun <+: turns cutShort.arrived ∧ cutShort.progress.begun = [.notify third] ∧
    turns cutShort.arrived = [.notify third, .request third 7 0, .notify third]
  := by
  have hbegins : (Life.spawned 0 asker busyWorld).Begins := .spawned 0 receives_busyWorld
  exact ⟨(turns_follow_arrivals hbegins reaches_cutShort).1, by cbv, by cbv⟩

/-! ### Being told to stop -/

/-- Let an actor be told to stop, and not halt over it.  Then it stops.  What had arrived before consists of the
envelopes whose turns had come to their end, then the one whose turn was under way, then those that were put
aside, of which there are none unless a turn was under way.  The turn that was under way and those that were put
aside are not handled. -/
theorem stop_leaves_only_turn_under_way {maxSteps : Nat} {s : Spawn} {w : World} {x : Life}
    {before after : List Deed} {e : Envelope} (hw : Actor.Receives s.actor w)
    (hx : (Life.spawned maxSteps s w).Reaches x) (hlog : x.log = before ++ .take e :: after)
    (he : e.isControl = true) (hhalts : x.progress.halts = []) :
  x.actor.phase = .stopped ∧
  (Progress.of before).taken ++ [e] <+: x.arrived ∧
  x.progress.handled = (Progress.of before).handled ∧
  ∃ aside, turns (Progress.of before).taken =
      (Progress.of before).handled ++ (Progress.of before).current.toList ++ aside ∧
    ((Progress.of before).current = none → aside = [])
  := by
  obtain ⟨hphase, hstops⟩ := (hx.sound hw).told hlog he
  obtain ⟨hhandled, haside⟩ := hstops before e after hlog he hhalts
  refine ⟨hphase, ?_, hhandled, haside⟩
  rw [Life.arrived, Life.progress, hlog, Progress.of_append]
  have htaken := (Actor.prefix_foldl_next ((Progress.of before).next (.take e)) after).1
  exact htaken.trans (prefix_append _ _)

/-- The actor is told to stop in the turn of the first notification. -/
theorem stop_leaves_only_turn_under_way_cutShort :
  (Progress.of (cutShort.log.take 4)).current = some (.notify third) ∧ cutShort.progress.halts = [] ∧
  ∃ aside, turns (Progress.of (cutShort.log.take 4)).taken =
    (Progress.of (cutShort.log.take 4)).handled ++ [.notify third] ++ aside
  := by
  have hlog : cutShort.log = cutShort.log.take 4 ++ .take .stop :: cutShort.log.drop 5 := by
    cbv
  have hcurrent : (Progress.of (cutShort.log.take 4)).current = some (.notify third) := by
    cbv
  have hhalts : cutShort.progress.halts = [] := by
    cbv
  obtain ⟨-, -, -, aside, haside, -⟩ :=
    stop_leaves_only_turn_under_way receives_busyWorld reaches_cutShort hlog rfl hhalts
  rw [hcurrent] at haside
  exact ⟨hcurrent, hhalts, aside, haside⟩

/-- The actor does not halt, and its only request is answered.  But no turn is handled: neither the one that was
under way, nor those of the request and the notification that arrived before the stop. -/
theorem stop_discards_earlier_notification :
  cutShort.actor.phase = .stopped ∧ cutShort.progress.halts = [] ∧
  cutShort.progress.taken =
    [.notify third, .request third 7 0, .notify third, .stop, .response third 0] ∧
  cutShort.progress.handled = []
  := by
  refine ⟨by cbv, by cbv, by cbv, by cbv⟩

end ActorLang
