import ActorLang.Proofs.Actor.Turns
import ActorLang.Proofs.Machine.Pending

/-!
# What a turn finds

An actor goes from turn to turn with one machine.  Only a turn that a throw halts leaves something
to the next one: its requests go on waiting, and a rejected response to one of them, which may come
between turns, puts its throw on the stack.
-/

namespace ActorLang

open Kernel (Ident Stmt)
open List

/-- The numbers of the requests that wait for a response. -/
def Machine.awaited (m : Machine) : List Nat := m.pending.map (·.1)

/-! ### Requests -/

namespace Machine

variable {m m' m'' : Machine} {id : Nat} {p : Portable}

theorem respond_of_not_awaited (h : id ∉ m.awaited) (p : Portable) :
  m.respond id p = m
  := by
  rw [respond, Env.lookup_eq_none h]

theorem awaited_respond_subset (m : Machine) (id : Nat) (p : Portable) :
  (m.respond id p).awaited ⊆ m.awaited
  := by
  rw [awaited, (Session.pending_respond m id p).1]
  exact map_subset _ (filter_subset_self _)

/-- The machine has gone on: the requests that wait are some of those that waited, and new ones. -/
structure Sends (m m' : Machine) : Prop where
  next : m.nextRequest ≤ m'.nextRequest
  awaited : ∀ id ∈ m'.awaited, id ∈ m.awaited ∨ m.nextRequest ≤ id ∧ id < m'.nextRequest

theorem Sends.of_subset (hnext : m'.nextRequest = m.nextRequest) (h : m'.awaited ⊆ m.awaited) :
  Sends m m'
  := ⟨hnext ▸ Nat.le_refl _, fun _ hid => .inl (h hid)⟩

theorem Sends.refl (m : Machine) :
  Sends m m
  := .of_subset rfl (Subset.refl _)

theorem Sends.trans (h : Sends m m') (h' : Sends m' m'') :
  Sends m m''
  := by
  refine ⟨Nat.le_trans h.next h'.next, fun id hid => ?_⟩
  rcases h'.awaited id hid with hid | ⟨hle, hlt⟩
  · rcases h.awaited id hid with hid | ⟨hle, hlt⟩
    · exact .inl hid
    · exact .inr ⟨hle, Nat.lt_of_lt_of_le hlt h'.next⟩
  · exact .inr ⟨Nat.le_trans h.next hle, hlt⟩

theorem sends_respond (m : Machine) (id : Nat) (p : Portable) :
  Sends m (m.respond id p)
  := .of_subset (Session.pending_respond m id p).2 (m.awaited_respond_subset id p)

theorem sends_step (σ : Session) :
  Sends σ.machine σ.step.2.machine
  := by
  rcases σ.act_step.requests with ⟨hnext, hpending⟩ | ⟨hnext, hpending, -⟩
  · have hawaited : σ.step.2.awaited = σ.awaited := hpending
    exact .of_subset hnext (hawaited ▸ Subset.refl _)
  · have hnext : σ.step.2.nextRequest = σ.nextRequest + 1 := hnext
    have hawaited : σ.step.2.awaited = σ.nextRequest :: σ.awaited := hpending
    refine ⟨by omega, fun id hid => ?_⟩
    rw [hawaited] at hid
    rcases mem_cons.mp hid with rfl | hid
    · exact .inr ⟨Nat.le_refl _, by omega⟩
    · exact .inl hid

end Machine

/-! ### Between turns -/

/-- What may be left between turns: requests that wait, and throws that rejected responses have put on the
stack, of requests with a property. -/
structure Machine.Remains (P : Nat → Prop) (m : Machine) : Prop where
  awaited : ∀ id ∈ m.awaited, P id
  stack : ∀ frame ∈ m.stack, ∃ id v, P id ∧ frame = .stmt (.throw (.ident "$failure")) [("$failure", v)]

namespace Machine

variable {m m' : Machine} {P Q : Nat → Prop}

theorem Remains.of_stack (hstack : m.stack = []) (h : ∀ id ∈ m.awaited, P id) :
  m.Remains P
  := by
  refine ⟨h, ?_⟩
  rw [hstack]
  exact forall_mem_nil _

theorem Remains.mono (h : m.Remains P) (hPQ : ∀ id, P id → Q id) :
  m.Remains Q
  := by
  refine ⟨fun id hid => hPQ id (h.awaited id hid), fun frame hframe => ?_⟩
  obtain ⟨id, v, hid, hthrow⟩ := h.stack frame hframe
  exact ⟨id, v, hPQ id hid, hthrow⟩

theorem Remains.respond (h : m.Remains P) (id : Nat) (p : Portable) :
  (m.respond id p).Remains P
  := by
  refine ⟨fun other hother => h.awaited other (m.awaited_respond_subset id p hother), ?_⟩
  rcases m.respond_cases id p with ⟨-, heq⟩ | ⟨v, _, hv, -, heq | ⟨f, heq⟩⟩
  · rw [heq]
    exact h.stack
  · rw [heq]
    exact h.stack
  · rw [heq]
    exact forall_mem_cons.mpr ⟨⟨id, _, h.awaited id (mem_map_of_mem hv), rfl⟩, h.stack⟩

end Machine

namespace Actor

variable {a : Actor} {w : World} {t : Task} {e : Envelope} {P : Nat → Prop} {deeds : List Deed}
  {r : Actor × World × Events}

/-- An actor goes on after a task that was done, or that waited for a variable and is given up, or that was the
turn of a request and was halted. -/
theorem endTask_idle {e : TurnEnd} (h : (a.endTask w t e).1.phase = .idle) :
  e = .done ∧ (a.endTask w t e).1.machine = a.machine ∨
  e = .suspended ∧ (a.endTask w t e).1.machine = a.machine.abandon ∨
  ∃ requester request result v, t = .ask requester request result ∧ e = .halted v ∧
    (a.endTask w t e).1.machine = a.machine
  := by
  cases t with
  | program => cases h
  | tell =>
    cases e with
    | done => exact .inl ⟨rfl, rfl⟩
    | suspended => exact .inr (.inl ⟨rfl, rfl⟩)
    | halted | stopped => cases h
  | ask =>
    cases e with
    | done => exact .inl ⟨rfl, rfl⟩
    | suspended => exact .inr (.inl ⟨rfl, rfl⟩)
    | halted => exact .inr (.inr ⟨_, _, _, _, rfl, rfl, rfl⟩)
    | stopped => cases h
  | configure result =>
    cases e with
    | done =>
      refine .inl ⟨rfl, ?_⟩
      simp only [endTask]
      cases a.handlersOf result <;> rfl
    | suspended | halted | stopped => cases h

theorem Accepted.remains (h : Accepted a w e r deeds) (hm : a.machine.Remains P) (hidle : r.1.phase = .idle) :
  r.1.machine.Remains P
  := by
  cases h with
  | stop | starts => cases hidle
  | response p id => exact hm.respond id p
  | lost => exact ⟨hm.awaited, hm.stack⟩

/-- The step ends the turn of a request by a throw that nobody catches. -/
def HaltsAsk (a : Actor) (w : World) : Prop :=
  ∃ requester request result v, a.phase = .running (.ask requester request result) ∧ (a.executed w).1 = some (.halt v)

theorem Ends.remains {σ : Session} {outcome : Outcome} {e : TurnEnd} (h : (a.rested σ.machine).Ends outcome e)
    (hphase : a.phase = .running t) (hexecuted : a.executed w = (some outcome, σ))
    (hidle : ((a.rested σ.machine).endTask σ.world t e).1.phase = .idle)
    (hP : a.HaltsAsk w → ∀ id ∈ ((a.rested σ.machine).endTask σ.world t e).1.awaited, P id) :
  ((a.rested σ.machine).endTask σ.world t e).1.machine.Remains P
  := by
  have hstack (h : ∀ v, outcome ≠ .suspend v) : σ.stack = [] := by
    rcases Session.step_eq_some hexecuted with ⟨hstack, -⟩ | ⟨_, _, _, _, _, -, hsuspend, -⟩
    · exact hstack
    · exact absurd hsuspend (h _)
  cases h with
  | halted v =>
    rcases endTask_idle hidle with ⟨h, -⟩ | ⟨h, -⟩ | ⟨requester, request, result, _, rfl, h, -⟩
    · cases h
    · cases h
    · refine .of_stack ?_ (hP ⟨requester, request, result, v, hphase, congrArg Prod.fst hexecuted⟩)
      exact hstack nofun
  | done hpending =>
    rcases endTask_idle hidle with ⟨-, hmachine⟩ | ⟨h, -⟩ | ⟨_, _, _, _, _, h, _⟩
    · rw [hmachine]
      refine .of_stack (hstack nofun) ?_
      simp_all [Machine.awaited, Machine.hasPending]
    · cases h
    · cases h
  | suspended =>
    rcases endTask_idle hidle with ⟨h, -⟩ | ⟨-, hmachine⟩ | ⟨_, _, _, _, _, h, _⟩
    · cases h
    · rw [hmachine]
      exact .of_stack rfl (forall_mem_nil _)
    · cases h

/-- A step that leads between turns leaves what was left before, and the requests of a turn that it halts. -/
theorem remains_step (h : a.phase = .idle → a.machine.Remains P) (hidle : (a.step w).1.phase = .idle)
    (hP : a.HaltsAsk w → ∀ id ∈ (a.step w).1.awaited, P id) :
  (a.step w).1.machine.Remains P
  := by
  have hstepped := a.stepped_step w
  generalize a.step w = r, a.deeds w = deeds at hidle hP hstepped ⊢
  cases hstepped with
  | nothing => exact h hidle
  | going hphase => cases hphase.symm.trans hidle
  | rest hphase hexecuted _ hrested =>
    cases hrested with
    | waits => cases hidle
    | ends hends => exact hends.remains hphase hexecuted hidle hP
  | await hphase _ _ hawaited =>
    -- a turn that waits does not end well
    cases hawaited with
    | stop => rcases endTask_idle hidle with ⟨h, -⟩ | ⟨h, -⟩ | ⟨_, _, _, _, _, h, _⟩ <;> cases h
    | response => cases hidle
    | aside => cases hphase.symm.trans hidle
  | deferred hphase _ _ haccepted | accept hphase _ _ _ haccepted =>
    exact haccepted.remains (h hphase) hidle

/-! ### Requests of an actor -/

theorem machine_endTask (a : Actor) (w : World) (t : Task) (e : TurnEnd) :
  (a.endTask w t e).1.machine = a.machine ∨ (a.endTask w t e).1.machine = a.machine.abandon
  := by
  cases t with
  | program => exact .inl rfl
  | tell | ask => cases e <;> first | exact .inl rfl | exact .inr rfl
  | configure result =>
    cases e with
    | done =>
      simp only [endTask]
      cases a.handlersOf result <;> exact .inl rfl
    | suspended | halted | stopped => exact .inl rfl

theorem sends_endTask (a : Actor) (w : World) (t : Task) (e : TurnEnd) :
  Machine.Sends a.machine (a.endTask w t e).1.machine
  := by
  rcases a.machine_endTask w t e with h | h
  · rw [h]
    exact .refl _
  · rw [h]
    exact .of_subset rfl (nil_subset _)

theorem Accepted.sends (h : Accepted a w e r deeds) :
  Machine.Sends a.machine r.1.machine
  := by
  cases h with
  | stop => exact .refl _
  | response p id => exact a.sends_respond id p
  | starts _ _ hpending hnext =>
    refine .of_subset hnext ?_
    rw [Machine.awaited, Machine.awaited, ← hpending]
    exact Subset.refl _
  | lost => exact .of_subset rfl (Subset.refl _)

theorem sends_step (a : Actor) (w : World) :
  Machine.Sends a.machine (a.step w).1.machine
  := by
  have hexecuted : Machine.Sends a.machine (a.executed w).2.machine := Machine.sends_step ⟨a.machine, w⟩
  have hstepped := a.stepped_step w
  generalize a.step w = r, a.deeds w = deeds at hstepped ⊢
  cases hstepped with
  | nothing => exact .refl _
  | going _ h =>
    rw [h] at hexecuted
    exact hexecuted
  | @rest t σ _ _ _ _ h _ hrested =>
    rw [h] at hexecuted
    have hrests : Machine.Sends a.machine (a.rested σ.machine).machine :=
      hexecuted.trans (.of_subset rfl (Subset.refl _))
    cases hrested with
    | waits => exact hrests
    | ends => exact hrests.trans (sends_endTask ..)
  | await _ _ _ hawaited =>
    cases hawaited with
    | stop => apply sends_endTask
    | response p id =>
      have hresponds := a.sends_respond id p
      exact ⟨hresponds.next, hresponds.awaited⟩
    | aside => exact .refl _
  | deferred _ _ _ haccepted | accept _ _ _ _ haccepted => exact haccepted.sends

end Actor

/-! ### Lives -/

namespace Life

variable {x₀ x y z : Life}

theorem Reaches.trans (h : x.Reaches y) (h' : y.Reaches z) :
  x.Reaches z
  := by
  induction h' with
  | refl => exact h
  | step _ ih => exact ih.step
  | others _ hw ih => exact ih.others hw

/-- The request was left without a response when the turn that had sent it was halted. -/
def Left (x₀ x : Life) (id : Nat) : Prop :=
  ∃ z, x₀.Reaches z ∧ z.actor.HaltsAsk z.world ∧ id ∈ z.step.actor.awaited ∧ z.step.Reaches x

theorem Reaches.sends (h : x.Reaches y) :
  Machine.Sends x.actor.machine y.actor.machine
  := by
  induction h with
  | refl => exact .refl _
  | @step y _ ih => exact ih.trans (y.actor.sends_step y.world)
  | others _ _ ih => exact ih

theorem Reaches.log (h : x.Reaches y) :
  x.log <+: y.log
  := by
  induction h with
  | refl => exact prefix_rfl
  | step _ ih => exact ih.trans (prefix_append _ _)
  | others _ _ ih => exact ih

theorem Reaches.remains (h : x₀.Reaches x) (h₀ : x₀.actor.phase ≠ .idle) (hx : x.actor.phase = .idle) :
  x.actor.machine.Remains (x₀.Left x)
  := by
  induction h with
  | refl => cases h₀ hx
  | @step y h ih =>
    refine Actor.remains_step (fun hy => (ih hy).mono ?_) hx fun hhalts id hid => ?_
    · rintro _ ⟨z, hz, hhalts, hid, hzy⟩
      exact ⟨z, hz, hhalts, hid, hzy.step⟩
    · exact ⟨y, h, hhalts, hid, .refl⟩
  | @others y w h hw ih =>
    refine (ih hx).mono ?_
    rintro _ ⟨z, hz, hhalts, hid, hzy⟩
    exact ⟨z, hz, hhalts, hid, hzy.others hw⟩

theorem Left.halted {id : Nat} (h : x₀.Left x id) :
  ∃ v, Deed.finish (.halted v) ∈ x.log
  := by
  obtain ⟨z, -, ⟨_, _, _, v, hphase, hhalt⟩, -, hzx⟩ := h
  refine ⟨v, hzx.log.subset (mem_append_right _ ?_)⟩
  rw [Actor.deeds, hphase]
  simp only [hhalt]
  simp [Actor.restDeeds, Actor.endTaskDeeds]

theorem Begins.phase (h : x₀.Begins) :
  x₀.actor.phase ≠ .idle
  := by
  cases h with
  | @spawned maxSteps s =>
    rcases start_cases maxSteps s with ⟨m, result, hstart⟩ | ⟨m, report, hstart⟩ <;>
      · rw [Life.spawned, hstart]
        intro h
        cases h
  | program =>
    intro h
    cases h

theorem pending_spawned (maxSteps : Nat) (s : Spawn) (w : World) :
  (spawned maxSteps s w).actor.pending = []
  := by
  have hstart : (Actor.start maxSteps s).1.pending = [] := by
    rw [Actor.start]
    split
    next m hrun =>
      obtain rfl := congrArg Prod.snd hrun
      rfl
    next v m hrun =>
      obtain rfl := congrArg Prod.snd hrun
      split <;> rfl
  rw [spawned]
  split
  next h => exact (congrArg (·.1.pending) h).symm.trans hstart
  next h => exact (congrArg (·.1.pending) h).symm.trans hstart

theorem Reaches.awaited_lt {s : Spawn} {w : World} {maxSteps : Nat} (h : (spawned maxSteps s w).Reaches x) :
  ∀ id ∈ x.actor.awaited, id < x.actor.nextRequest
  := by
  intro id hid
  rcases h.sends.awaited id hid with hid | ⟨-, hlt⟩
  · rw [Machine.awaited, pending_spawned] at hid
    cases hid
  · exact hlt

end Life

/-- Let an actor start a turn.  All that its machine has to do or waits for goes back to requests
that were left without a response when their turn was halted by a throw: such requests may still
wait, and rejected responses to them may have put throws on the stack.  So if no turn has been
halted, the stack is empty and no request waits.  From then on, the machine waits only for requests
that were left like that and for new ones, and a response to any other request that it has waited
for before changes nothing. -/
theorem turns_isolated {x₀ x : Life} {e : Envelope} (h₀ : x₀.Begins) (hx : x₀.Reaches x)
    (hstart : Deed.start e ∈ x.actor.deeds x.world) :
  x.actor.machine.Remains (x₀.Left x) ∧
  ((∀ v, Deed.finish (.halted v) ∉ x.log) →
    x.actor.stack = [] ∧ x.actor.pending = []) ∧
  ∀ y, x.Reaches y →
    (∀ id ∈ y.actor.awaited, x₀.Left x id ∨ x.actor.nextRequest ≤ id) ∧
    ∀ z, x₀.Reaches z → z.Reaches x → ∀ id ∈ z.actor.awaited, ¬ x₀.Left x id →
      ∀ p, y.actor.respond id p = y.actor.machine
  := by
  have hremains := hx.remains h₀.phase (Actor.phase_of_start hstart)
  have hlater {y : Life} (hy : x.Reaches y) {id : Nat} (hid : id ∈ y.actor.awaited) :
      x₀.Left x id ∨ x.actor.nextRequest ≤ id :=
    (hy.sends.awaited id hid).imp (hremains.awaited id) (·.1)
  refine ⟨hremains, fun hlog => ?_, fun y hy => ⟨fun id => hlater hy, fun z hz hzx id hid hleft p => ?_⟩⟩
  · have hnone (id : Nat) : ¬ x₀.Left x id := fun h => h.halted.elim hlog
    refine ⟨eq_nil_iff_forall_not_mem.mpr fun frame hframe => ?_,
      eq_nil_iff_forall_not_mem.mpr fun waiting hwaiting => ?_⟩
    · obtain ⟨id, -, hid, -⟩ := hremains.stack frame hframe
      exact hnone id hid
    · exact hnone _ (hremains.awaited _ (mem_map_of_mem hwaiting))
  · apply Machine.respond_of_not_awaited
    intro hidy
    cases h₀ with
    | spawned _ =>
      have hlt := hz.awaited_lt id hid
      have hnext := hzx.sends.next
      rcases hlater hy hidy with h | _
      · exact hleft h
      · omega
    | program =>
      have hphase := Actor.phase_of_start hstart
      rcases hx.ofProgram.1 with h | h | ⟨_, h⟩ <;> cases h.symm.trans hphase

/-! ### Turns that come after others -/

def Life.sent (x : Life) (e : Envelope) : Life := { x with world := Actor.post x.world x.actor.id e }

theorem Life.Reaches.sent {x y : Life} {e : Envelope} (h : x.Reaches y) (he : e.Proper) :
  x.Reaches (y.sent e)
  := h.others (grows_post y.world y.actor.id he y.actor.id)

/-- A notification and a request wait for the second actor. -/
def askedWorld : World := { mailboxes := #[{}, ⟨true, [.notify third, .request third 7 0]⟩, {}] }

/-- The actor has asked the third one, and waits for the response. -/
def waitingAsker : Life := Life.step^[11] (.spawned 0 asker askedWorld)

/-- The response has come, and the turn of the notification is over. -/
def answeredAsker : Life := Life.step^[3] (waitingAsker.sent (.response third 0))

theorem reaches_waitingAsker :
  (Life.spawned 0 asker askedWorld).Reaches waitingAsker
  := Life.Reaches.refl.iterate 11

theorem reaches_answeredAsker :
  waitingAsker.Reaches answeredAsker
  := (Life.Reaches.refl.sent (.response third 0)).iterate 3

/-- The turn of the request finds nothing of the turn before it, and another response to the request of that
turn would change nothing. -/
theorem turns_isolated_answered :
  Deed.start (.request third 7 0) ∈ answeredAsker.actor.deeds answeredAsker.world ∧
  waitingAsker.actor.awaited = [0] ∧ answeredAsker.actor.stack = [] ∧
  answeredAsker.actor.pending = [] ∧
  answeredAsker.actor.respond 0 third = answeredAsker.actor.machine
  := by
  have hbegins : (Life.spawned 0 asker askedWorld).Begins := by
    refine .spawned 0 ⟨_, rfl, ?_⟩
    simp only [forall_mem_cons]
    exact ⟨.notify third_isSnapshot, .request third_isSnapshot 7 0, forall_mem_nil _⟩
  have hstart : Deed.start (.request third 7 0) ∈ answeredAsker.actor.deeds answeredAsker.world := by
    have hdeeds : answeredAsker.actor.deeds answeredAsker.world = [.start (.request third 7 0)] := by
      cbv
    exact hdeeds ▸ mem_singleton_self _
  have hawaited : waitingAsker.actor.awaited = [0] := by
    cbv
  have hlog : ∀ v, Deed.finish (.halted v) ∉ answeredAsker.log := by
    have hlog : answeredAsker.log = [.take (.notify third), .start (.notify third), .take (.request third 7 0),
        .take (.response third 0), .finish .done] := by
      cbv
    rw [hlog]
    simp
  obtain ⟨-, hnothing, hlater⟩ :=
    turns_isolated hbegins (reaches_waitingAsker.trans reaches_answeredAsker) hstart
  obtain ⟨hstack, hpending⟩ := hnothing hlog
  refine ⟨hstart, hawaited, hstack, hpending, ?_⟩
  refine (hlater answeredAsker .refl).2 waitingAsker reaches_waitingAsker reaches_answeredAsker 0 ?_ ?_ third
  · exact hawaited ▸ mem_singleton_self 0
  · exact fun h => h.halted.elim hlog

/-- The body of an actor that answers zero with zero.  Any other request makes it ask the actor that
the message refers to two times, and then throw without waiting for the responses. -/
def quitterBody : Kernel.Stmt :=
  .scope ["ask"] (.seq [.createProc ["m", "r"] (.cases (.ident "m") (.lit (.int32 0)) (.bind (.ident "m") "r")
        (.scope ["five"] (.seq [.bind (.lit (.int32 5)) "five",
            .selectApply (.ident "m") [.lit (.str "ask")] [.lit (.int32 1), .ident "five"],
            .selectApply (.ident "m") [.lit (.str "ask")] [.lit (.int32 2)],
            .throw (.ident "five")]))) "ask",
      .createTuple (some (.lit (.str "handlers"))) [.ident "ask", .ident "ask"] "out"])

def quitter : Spawn :=
  ⟨1, { procs := #[⟨["out"], quitterBody, []⟩], cfgs := #[⟨0, []⟩] }, .scalar (.actorCfg 0)⟩

def zeroMessage : Portable := ⟨{}, .scalar (.lit (.int32 0))⟩

/-- A request waits for the actor. -/
def quitting : Life := .spawned 0 quitter { mailboxes := #[{}, ⟨true, [.request third 7 0]⟩, {}] }

/-- The turn of the request has been halted.  Then came a response that is not five, and zero waits for its
turn. -/
def lateTurn : Life :=
  Life.step (((Life.step^[15] quitting).sent (.response third 0)).sent (.request zeroMessage 8 0))

/-- The turn of zero starts, but the throw of the rejected response is on the stack, and a request waits.  So
zero is not answered with zero: the throw halts its turn, too. -/
theorem halted_turn_leaves_requests :
  quitting.Begins ∧ quitting.Reaches lateTurn ∧
  Deed.start (.request zeroMessage 8 0) ∈ lateTurn.actor.deeds lateTurn.world ∧
  lateTurn.actor.stack = [.stmt (.throw (.ident "$failure")) [("$failure", 16)]] ∧
  lateTurn.actor.awaited = [1] ∧
  (Life.step^[5] lateTurn).log.getLast? = some (.finish (.halted (.var 16)))
  := by
  have hbegins : quitting.Begins := by
    refine .spawned 0 ⟨_, rfl, ?_⟩
    rw [forall_mem_singleton]
    exact .request third_isSnapshot 7 0
  have hzero : zeroMessage.IsSnapshot := ⟨{}, .scalar (.lit (.int32 0)), by cbv⟩
  have hdeeds : lateTurn.actor.deeds lateTurn.world =
      [.take (.request zeroMessage 8 0), .start (.request zeroMessage 8 0)] := by
    cbv
  refine ⟨hbegins, ?_, ?_, by cbv, by cbv, by cbv⟩
  · exact (((Life.Reaches.refl.iterate 15).sent (.response third 0)).sent (.request hzero 8 0)).step
  · rw [hdeeds]
    exact mem_cons_of_mem _ (mem_singleton_self _)

end ActorLang
