import ActorLang.Evaluation

/-!
# Actors

An actor owns a machine and handles its envelopes one at a time.  A turn ends when the machine rests
and no request of it is unanswered; other envelopes are put aside until then.  An actor that stops
answers the requests that it has not handled.
-/

namespace ActorLang

/-- How the work of an actor came to rest. -/
inductive TurnEnd where
  | done
  /-- It waits for a variable that nobody will bind. -/
  | suspended
  | halted (v : Value)
  /-- It was told to stop while it waited for a response. -/
  | stopped
  deriving DecidableEq

/-- What an actor works on. -/
inductive Task where
  | program
  /-- The start of an actor, whose handlers the variable receives. -/
  | configure (result : VarId)
  /-- A request and the variable of its result. -/
  | ask (requester : ActorId) (request : Nat) (result : VarId)
  | tell
  deriving DecidableEq

/-- What an actor is doing. -/
inductive Phase where
  | running (t : Task)
  /-- Waits for the response to a request of its own. -/
  | waiting (t : Task)
  /-- Waits for an envelope. -/
  | idle
  /-- The program has ended. -/
  | finished (e : TurnEnd)
  | stopped
  deriving DecidableEq, Inhabited

/-- The procedures that handle messages. -/
structure Handlers where
  ask : Value := .lit .null
  tell : Value := .lit .null
  deriving Inhabited

structure Actor extends machine : Machine where
  id : ActorId
  phase : Phase
  handlers : Handlers := {}
  /-- Envelopes put aside, first come first. -/
  deferred : List Envelope := []
  deriving Inhabited

/-- What a step of an actor leads to, beside its own state and that of the world. -/
structure Events where
  spawns : List Spawn := []
  halts : List HaltReport := []

namespace Actor

/-! ### Answers -/

/-- The snapshot that answers a request, an error if there is none of the value. -/
def reply (m : Machine) (v : Value) : Portable :=
  match m.store.resolve v with
  | .var _ => .error "NotBoundError" "the ask handler left its result unbound"
  | .datum d => match m.store.exportValue (.datum d) with
    | .ok p => p
    | .error e => .error "NotPortableError" e.message

/-- The answer of an actor that has stopped. -/
def stoppedReply (id : ActorId) : Portable :=
  .error "ActorStoppedError" ("actor " ++ toString id ++ " stopped")

/-- The answer to a request of which the turn has ended. -/
def turnReply (a : Actor) (result : VarId) : TurnEnd → Portable
  | .done => reply a.machine (.var result)
  | .halted v => reply a.machine v
  | .suspended =>
    .error "NotBoundError" "the ask handler is waiting on an unbound variable"
  | .stopped => stoppedReply a.id

def post (w : World) (actor : ActorId) (e : Envelope) : World := (w.send? actor e).getD w

/-- Answers requests that will not be handled. -/
def refuse (id : ActorId) (w : World) : List Envelope → World
  | [] => w
  | e :: rest => match e.requester, e.requestId with
    | some requester, some request =>
      refuse id (post w requester (.response (stoppedReply id) request)) rest
    | _, _ => refuse id w rest

/-- Closes the mailbox and answers what is left. -/
def stop (a : Actor) (w : World) : Actor × World :=
  let (queue, w) := w.close a.id
  ({ a with phase := .stopped, deferred := [] }, refuse a.id w (a.deferred ++ queue))

/-- The report of an actor that halts on a value. -/
def haltReport (a : Actor) (v : Value) : HaltReport :=
  let v := a.store.resolve v
  ⟨a.id, a.store.errorName? v, a.render v⟩

/-! ### Starting -/

/-- Lets the machine work on a task. -/
def work (a : Actor) (t : Task) : Actor :=
  { a with phase := .running t, steps := 0 }

def program (id : ActorId) (m : Machine) : Actor :=
  work { id, machine := m, phase := .idle } .program

def roots (s : Store) (vars : List VarId) : List VarId := vars.map s.root

/-- The actor that a machine asked for, or why it cannot start. -/
def start (maxSteps : Nat) (s : Spawn) : Actor × Option HaltReport :=
  let fresh (machine : Machine) : Actor := { id := s.actor, machine, phase := .idle }
  let failed (message : String) : HaltReport := ⟨s.actor, some "TypeError", message⟩
  match (Machine.create maxSteps (some s.actor)).onStore (·.importValue s.cfg) with
  | (.error e, m) => (fresh m, some (failed e.message))
  | (.ok v, m) => match m.store.resolve v with
    | .datum (.scalar (.actorCfg id)) =>
      let cfg := m.store.cfg id
      let args := roots m.store cfg.args
      let (result, m) := m.onStore (·.newVar)
      let m := m.pushApply (.scalar (.proc (.closure cfg.cfgtr))) (args ++ [result])
      ((fresh m).work (.configure result), none)
    | _ => (fresh m, some (failed "spawn expects an actor configuration"))

/-- The handlers that the start of an actor results in, or why there are none. -/
def handlersOf (a : Actor) (result : VarId) : Except String Handlers :=
  let s := a.store
  let v := s.resolve (.var result)
  match v with
  | .datum (.record id) =>
    let r := s.record id
    if r.label = some (.str "handlers") then
      match r.get? (Record.position 0), r.get? (Record.position 1) with
      | some ask, some tell => .ok ⟨s.resolve ask.toValue, s.resolve tell.toValue⟩
      | _, _ => .error "configurator produced an incomplete handler pair"
    else .error ("configurator produced " ++ s.render v)
  | v => .error ("configurator produced " ++ s.render v)

/-! ### Turns -/

def halt (a : Actor) (w : World) (report : HaltReport) : Actor × World × Events :=
  let (a, w) := a.stop w
  (a, w, { halts := [report] })

def abandon (a : Actor) : Actor := { a with machine := a.machine.abandon }

/-- What follows the end of a task. -/
def endTask (a : Actor) (w : World) (t : Task) (e : TurnEnd) : Actor × World × Events :=
  match t with
  | .program => ({ a with phase := .finished e }, w, {})
  | .configure result => match e with
    | .done => match a.handlersOf result with
      | .ok handlers => ({ a with phase := .idle, handlers }, w, {})
      | .error message => a.halt w ⟨a.id, some "TypeError", message⟩
    | .halted v => a.halt w (a.haltReport v)
    | .suspended | .stopped =>
      a.halt w ⟨a.id, some "NotBoundError", "actor configuration did not complete"⟩
  | .ask requester request result =>
    let w := post w requester (.response (a.turnReply result e) request)
    match e with
    | .done | .halted _ => ({ a with phase := .idle }, w, {})
    | .suspended => ({ a.abandon with phase := .idle }, w, {})
    | .stopped =>
      let (a, w) := a.abandon.stop w
      (a, w, {})
  | .tell => match e with
    | .done => ({ a with phase := .idle }, w, {})
    | .suspended => ({ a.abandon with phase := .idle }, w, {})
    | .halted v => a.halt w (a.haltReport v)
    | .stopped =>
      let (a, w) := a.abandon.stop w
      (a, w, {})

/-- What follows the outcome of a run of the machine. -/
def rest (a : Actor) (w : World) (t : Task) (outcome : Outcome) : Actor × World × Events :=
  match outcome with
  | .halt v => a.endTask w t (.halted v)
  | .done =>
    if a.hasPending then ({ a with phase := .waiting t }, w, {}) else a.endTask w t .done
  | .suspend _ =>
    if a.hasPending then ({ a with phase := .waiting t }, w, {})
    else a.endTask w t .suspended

def stepTask (a : Actor) (w : World) (t : Task) : Actor × World × Events :=
  let ⟨machine, id, phase, handlers, deferred⟩ := a
  match Session.step ⟨machine, w⟩ with
  | (none, ⟨machine, w⟩) => (⟨machine, id, phase, handlers, deferred⟩, w, {})
  | (some outcome, ⟨machine, w⟩) =>
    let spawns := machine.spawns
    let a : Actor := ⟨{ machine with spawns := [] }, id, phase, handlers, deferred⟩
    let (a, w, events) := a.rest w t outcome
    (a, w, { events with spawns })

/-- Takes an envelope while a turn waits for a response. -/
def await (a : Actor) (w : World) (t : Task) (e : Envelope) : Actor × World × Events :=
  match e.message, e.requestId, e.requester with
  | .stop, _, _ => a.endTask w t .stopped
  | .data p, some request, none =>
    ({ a with machine := a.respond request p }.work t, w, {})
  | .data _, _, _ => ({ a with deferred := a.deferred ++ [e] }, w, {})

/-- Takes an envelope between turns. -/
def accept (a : Actor) (w : World) (e : Envelope) : Actor × World × Events :=
  match e.message with
  | .stop =>
    let (a, w) := a.stop w
    (a, w, {})
  | .data p => match e.requestId, e.requester with
    | some request, none => ({ a with machine := a.respond request p }, w, {})
    | requestId, requester =>
      match a.onStore (·.importValue p) with
      | (.error _, m) => ({ a with machine := m }, w, {})
      | (.ok v, m) =>
        let (message, m) := m.onStore (·.newBound v)
        match requester, requestId with
        | some requester, some request =>
          let (result, m) := m.onStore (·.newVar)
          let m := m.pushApply a.handlers.ask [message, result]
          ({ a with machine := m }.work (.ask requester request result), w, {})
        | _, _ =>
          let m := m.pushApply a.handlers.tell [message]
          ({ a with machine := m }.work .tell, w, {})

/-- The actor takes an envelope from its mailbox, if there is one. -/
def receive (a : Actor) (w : World) (take : Actor → World → Envelope → Actor × World × Events) :
    Actor × World × Option Events :=
  match w.receive? a.id with
  | none => (a, w, none)
  | some (e, w) =>
    let (a, w, events) := take a w e
    (a, w, some events)

/-- One step of an actor.  Without events it has nothing to do before another envelope arrives. -/
def step (a : Actor) (w : World) : Actor × World × Option Events :=
  match a.phase with
  | .running t =>
    let (a, w, events) := a.stepTask w t
    (a, w, some events)
  | .waiting t => a.receive w fun a w e => a.await w t e
  | .idle => match a.deferred with
    | e :: deferred =>
      let (a, w, events) := { a with deferred }.accept w e
      (a, w, some events)
    | [] => a.receive w accept
  | .finished _ => (a, w, none)
  | .stopped => (a, w, none)

end Actor

end ActorLang
