import ActorLang.Kernel.Free
import ActorLang.Machine.Apply
import ActorLang.Machine.Match
import ActorLang.Primitive

/-!
# Steps and runs

A step takes the first frame off the stack and executes it.  A run repeats steps until the
machine is done, waits for a variable, or halts on a value that nobody catches.
-/

namespace ActorLang

open Kernel (Ident Operand BinaryPrim Stmt)

namespace Exec

/-- The result of a primitive, or its fault. -/
def liftFault {α : Type} (r : Except Fault α) : Exec α :=
  match r with
  | .ok a => return a
  | .error f => fault f

def binary (op : BinaryPrim) (left right : Value) : Exec Literal := do
  match op with
  | .eq => return .bool (← decided (← withStore (·.equals left right)))
  | .ne => return .bool (!(← decided (← withStore (·.equals left right))))
  | .lt | .gt | .le | .ge =>
    let left ← determined left
    let right ← determined right
    return .bool (← liftFault (compareData op left right))
  | .add | .sub | .mult | .div | .mod =>
    let left ← determined left
    let right ← determined right
    liftFault (arith op left right)

def fields (env : Env) : List (Operand × Operand) → Exec (List (Feature × Leaf))
  | [] => return []
  | (f, v) :: rest => do
    let f ← feature env f
    let v ← leaf env v
    return (f, v) :: (← fields env rest)

def leaves (env : Env) : List Operand → Exec (List Leaf)
  | [] => return []
  | arg :: rest => do
    let v ← leaf env arg
    return v :: (← leaves env rest)

def capture (env : Env) : List Ident → Exec (List (Ident × VarId))
  | [] => return []
  | name :: rest => do
    let v ← lookup env name
    return (name, v) :: (← capture env rest)

def newClosure (env : Env) (params : List Ident) (body : Stmt) : Exec Closure := do
  return ⟨params, body, ← capture env (Stmt.captured params body)⟩

def newVars : List Ident → Exec (List (Ident × VarId))
  | [] => return []
  | name :: rest => do
    let v ← onStore (·.newVar)
    return (name, v) :: (← newVars rest)

def bindClosure (target : VarId) (c : Closure) (kind : ProcId → Scalar) : Exec Unit := do
  let id ← onStore (·.newClosure c)
  bind target (.scalar (kind id))

def stmt (env : Env) : Stmt → Exec Next
  | .scope idents body => do
    let vars ← newVars idents
    return .enter body (env.extend vars)
  | .seq stmts => return .enterAll stmts env
  | .skip => return .rest
  | .jumpCatch _ => return .rest
  | .bind arg target => do
    let value ← operand env arg
    let target ← lookup env target
    bind target value
    return .rest
  | .binary op left right target => do
    let left ← operand env left
    let right ← operand env right
    let target ← lookup env target
    bind target (.lit (← binary op left right))
    return .rest
  | .negate arg target => do
    let d ← determinedOperand env arg
    let target ← lookup env target
    bind target (.lit (← liftFault (negate d)))
    return .rest
  | .get cellArg target => do
    let id ← cell env cellArg
    let target ← lookup env target
    bind target (← withStore (·.cell id)).toValue
    return .rest
  | .set cellArg value => do
    let id ← cell env cellArg
    let content ← leaf env value
    onStore fun s => ((), s.setCell id content)
    return .rest
  | .select record f target => do
    let d ← determinedOperand env record
    let f ← feature env f
    let target ← lookup env target
    bind target (← select d f)
    return .rest
  | .selectApply record path args => selectApply env record path args
  | .createRecord label fieldArgs target => do
    let label ← optionalFeature env label
    let fields ← fields env fieldArgs
    let target ← lookup env target
    match Record.ofFields label fields with
    | .ok r => bindRecord target r
    | .error f => fault (.duplicateFeature f)
    return .rest
  | .createTuple label values target => do
    let label ← optionalFeature env label
    let values ← leaves env values
    let target ← lookup env target
    bindRecord target (.tuple label values)
    return .rest
  | .createProc params body target => do
    let c ← newClosure env params body
    let target ← lookup env target
    bindClosure target c fun id => .proc (.closure id)
    return .rest
  | .createActor params body target => do
    let c ← newClosure env params body
    let target ← lookup env target
    bindClosure target c .actorCfgtr
    return .rest
  | .apply proc args => do
    applyOperands env (← determinedOperand env proc) args
  | .ifElse cond yes no => do
    match ← determinedOperand env cond with
    | .scalar (.lit (.bool true)) => return .enter yes env
    | .scalar (.lit (.bool false)) => return .enter no env
    | d => fault (.conditionType d.typeName)
  | .cases arg pattern yes no => do
    match ← matchPattern env (← operand env arg) pattern with
    | some captures => return .enter yes (env.extend captures)
    | none => return .enter no env
  | .attempt body caught handler => return .guarded body caught handler env
  | .throw arg => do throw (.throw (← operand env arg))
  | .jumpThrow label => return .jump label

end Exec

namespace Machine

/-- The first handler on the stack and what is below it. -/
def handlerBelow : Stack → Option (Ident × Stmt × Env × Stack)
  | [] => none
  | .handler caught s env :: rest => some (caught, s, env, rest)
  | .stmt _ _ :: rest => handlerBelow rest

def unwind (m : Machine) (value : Value) : Option Outcome × Machine :=
  match handlerBelow m.stack with
  | some (caught, s, env, rest) =>
    let (v, m) := { m with stack := rest }.onStore (·.newBound value)
    (none, m.push s (env.extend [(caught, v)]))
  | none => (some (.halt value), { m with stack := [] })

def faultValue (m : Machine) (f : Fault) : Value × Machine :=
  let (id, m) := m.onStore (·.newRecord f.record)
  (.record id, m)

end Machine

namespace Session

def raise (s : Session) (f : Fault) : Option Outcome × Session :=
  let (value, machine) := s.faultValue f
  let (outcome, machine) := machine.unwind value
  (outcome, { s with machine })

def interrupt (s : Session) (frame : Frame) : Interrupt → Option Outcome × Session
  | .suspend v =>
    (some (.suspend (s.store.root v)),
      { s with stack := frame :: s.stack })
  | .throw value =>
    let (outcome, machine) := s.unwind value
    (outcome, { s with machine })
  | .fault f => s.raise f

/-- Goes on with what comes next.  A jump without its catch drops the stack. -/
def proceed (s : Session) (next : Next) : Option Outcome × Session :=
  match next.onStack s.stack with
  | .ok stack => (none, { s with stack })
  | .error f => { s with stack := [] }.raise f

/-- Takes a frame off the stack and executes it; an outcome ends the run. -/
def step (s : Session) : Option Outcome × Session :=
  let ⟨m, world⟩ := s
  match m.stack with
  | [] => (some .done, ⟨m, world⟩)
  | .handler _ _ _ :: rest => (none, ⟨{ m with stack := rest }, world⟩)
  | .stmt stmt env :: rest =>
    if 0 < m.maxSteps ∧ m.maxSteps ≤ m.steps then
      let (value, m) := { m with stack := [] }.faultValue (.stepLimit m.maxSteps)
      (some (.halt value), ⟨m, world⟩)
    else
      let m := { m with stack := rest, steps := m.steps + 1 }
      match (Exec.stmt env stmt).run ⟨m, world⟩ with
      | (.ok next, s) => s.proceed next
      | (.error e, s) => s.interrupt (.stmt stmt env) e

/-- Repeats steps, at most `fuel` of them. -/
def continueRun : (fuel : Nat) → Session → Option Outcome × Session
  | 0, s => (none, s)
  | fuel + 1, s => match s.step with
    | (none, s) => continueRun fuel s
    | (some outcome, s) => (some outcome, s)

/-- Starts to count the steps of a run. -/
def startRun (s : Session) : Session := { s with steps := 0 }

/-- Runs the machine; without an outcome the fuel was not enough. -/
def run (fuel : Nat) (s : Session) : Option Outcome × Session := continueRun fuel s.startRun

end Session

end ActorLang
