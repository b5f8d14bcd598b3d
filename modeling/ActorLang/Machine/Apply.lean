import ActorLang.Machine.Basic

/-!
# Applying procedures and sending messages

The body of an applied closure comes next, builtins are applied at once.  Selecting from an actor
sends it a message, and selecting `cfg` from a configurator makes a configuration.
-/

namespace ActorLang

open Kernel (Operand programResult)

/-- Drops the result of the program from the arguments of something that takes `takes`
arguments and has no result. -/
def withoutResult (args : List Operand) (takes : Nat) : List Operand :=
  if args.getLast? = some (.ident programResult) ∧ args.length = takes + 1 then args.dropLast
  else args

namespace Exec

/-! ### Builtins -/

def recordArg (v : VarId) : Exec Record := do
  match ← determined (.var v) with
  | .record id => withStore (·.record id)
  | d => fault (.argumentType "a Rec" d.typeName)

/-- The integer that a datum is, and whether it has 64 bits. -/
def integer? : Datum → Option (Int × Bool)
  | .scalar (.lit (.int32 n)) => some (n.toInt, false)
  | .scalar (.lit (.int64 n)) => some (n.toInt, true)
  | _ => none

def newRange (start stop result : VarId) : Exec Unit := do
  let start ← determined (.var start)
  let stop ← determined (.var stop)
  match integer? start, integer? stop with
  | some (a, wide), some (b, wide') =>
    let index ← onWorld fun w =>
      (w.iterators.size,
        { w with iterators := w.iterators.push ⟨.ofInt a, .ofInt b, wide || wide'⟩ })
    bind result (.scalar (.proc (.iterator index)))
  | none, _ => fault (.argumentType "an integer range bound" start.typeName)
  | some _, none => fault (.argumentType "an integer range bound" stop.typeName)

/-- Asks the host for a new actor. -/
def spawn (cfg : Datum) : Exec ActorId := do
  if (← get).self.isNone then fault .spawnOutsideActor
  let cfg ← snapshot (.datum cfg)
  let actor ← onWorld (·.newMailbox)
  onMachine fun m => (actor, { m with spawns := m.spawns ++ [⟨actor, cfg⟩] })

def applyBuiltin : Builtin → List VarId → Exec Unit
  | .cellNew, [content, result] => do
    let id ← onStore (·.newCell (.var content))
    bind result (.scalar (.cell id))
  | .recAssign, [other, record, result] => do
    let other ← recordArg other
    let record ← recordArg record
    bindRecord result (record.assign other)
  | .recSize, [record, result] => do
    let record ← recordArg record
    if record.size > Int32.maxValue.toInt.toNat then fault .recordSize
    bind result (.lit (.int32 (Int32.ofNat record.size)))
  | .tokenNew, [result] => do
    let token ← onWorld fun w => (w.nextToken, { w with nextToken := w.nextToken + 1 })
    bind result (.scalar (.token token))
  | .range, [start, stop, result] => newRange start stop result
  | .spawn, [cfg, result] => do
    match ← determined (.var cfg) with
    | .scalar (.actorCfg id) =>
      let actor ← spawn (.scalar (.actorCfg id))
      bind result (.scalar (.actor actor))
    | d => fault (.argumentType "an ActorCfg" d.typeName)
  | .assertBound, [v] => do
    if !(← withStore (·.isBound v)) then fault .notBound
  | b, args => fault (.arity b.arity args.length)

def advance (index : Nat) (result : VarId) : Exec Unit := do
  let value ← onWorld fun w => match w.iterators[index]? with
    | some it =>
      let (value, it) := it.advance
      (value, { w with iterators := w.iterators.setIfInBounds index it })
    | none => (.eof, w)
  bind result (.lit value)

/-! ### Procedures -/

def arity (s : Store) : ProcRef → Nat
  | .closure id => (s.closure id).params.length
  | .builtin _ b => b.arity
  | .iterator _ => 1

def apply (proc : Datum) (args : List VarId) : Exec Next := do
  match proc with
  | .scalar (.proc p) =>
    let expected ← withStore (arity · p)
    if expected ≠ args.length then fault (.arity expected args.length)
    match p with
    | .closure id =>
      let c ← withStore (·.closure id)
      return .enter c.body (Env.extend [] (c.env ++ c.params.zip args))
    | .builtin _ b =>
      applyBuiltin b args
      return .rest
    | .iterator index => match args with
      | [result] =>
        advance index result
        return .rest
      | args => fault (.arity 1 args.length)
  | d => fault (.notProc (← withStore (·.render (.datum d))))

def applyOperands (env : Env) (proc : Datum) (args : List Operand) : Exec Next := do
  let args ← match proc with
    | .scalar (.proc p) => pure (withoutResult args (← withStore (arity · p)))
    | _ => pure args
  apply proc (← operandVars env args)

/-! ### Actors -/

/-- Makes an actor configuration.  A last argument beyond the parameters is the result. -/
def configure (cfgtr : ProcId) (args : List VarId) : Exec Unit := do
  let params := (← withStore (·.closure cfgtr)).params.length - 1
  if args.length = params + 1 then
    let id ← onStore (·.newCfg ⟨cfgtr, args.take params⟩)
    match args[params]? with
    | some result => bind result (.scalar (.actorCfg id))
    | none => return
  else if args.length ≠ params then fault (.cfgArity params args.length)

def asks (method : Feature) : Exec Bool :=
  match method with
  | .str "ask" => return true
  | .str "tell" => return false
  | f => fault (.actorMethod f)

/-- A new request, whose response goes to the first of the variables, or to a new one. -/
def newRequest (results : List VarId) : Exec Nat := do
  let result ← match results with
    | result :: _ => pure result
    | [] => onStore (·.newVar)
  onMachine fun m =>
    (m.nextRequest, { m with
      nextRequest := m.nextRequest + 1
      pending := (m.nextRequest, result) :: m.pending })

def deliver (actor : ActorId) (e : Envelope) : Exec Unit := do
  let sent ← onWorld fun w => match w.send? actor e with
    | some w => (true, w)
    | none => (false, w)
  if !sent then fault (.actorStopped actor)

/-- Sends a request or a notification to an actor, in the name of another one. -/
def sendFrom (me actor : ActorId) (method : Feature) (args : List VarId) : Exec Unit := do
  let isAsk ← asks method
  let most := if isAsk then 2 else 1
  match args with
  | [] => fault (.sendArity method most 0)
  | message :: rest =>
    if args.length > most then fault (.sendArity method most args.length)
    let message ← determined (.var message)
    let message ← snapshot (.datum message)
    if isAsk then
      let id ← newRequest rest
      deliver actor (.request message id me)
    else deliver actor (.notify message)

def send (actor : ActorId) (method : Feature) (args : List VarId) : Exec Unit := do
  match (← get).self with
  | some me => sendFrom me actor method args
  | none => fault .sendOutsideActor

def selectPath (d : Datum) : List Feature → Exec Datum
  | [] => return d
  | f :: rest => do
    let field ← select d f
    selectPath (← determined field) rest

/-- Applies what is found at the end of a path of features. -/
def selectApply (env : Env) (record : Operand) (path args : List Operand) : Exec Next := do
  let start ← determinedOperand env record
  let path ← features env path
  match path.getLast? with
  | none => fault .emptyPath
  | some method =>
    let d ← selectPath start path.dropLast
    match d with
    | .record _ =>
      let proc ← determined (← select d method)
      applyOperands env proc args
    | .scalar (.actor actor) =>
      let takes := if method = .str "tell" then 1 else 2
      send actor method (← operandVars env (withoutResult args takes))
      return .rest
    | .scalar (.actorCfgtr cfgtr) =>
      if method ≠ .str "cfg" then fault (.applyType method d.typeName)
      configure cfgtr (← operandVars env args)
      return .rest
    | d => fault (.applyType method d.typeName)

end Exec

end ActorLang
