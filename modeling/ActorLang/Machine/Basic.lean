import ActorLang.Actor.World
import ActorLang.Fault

/-!
# The machine

A machine runs kernel statements.  It keeps a stack of statements with their environments, and of
handlers of attempts.  Executing a statement does not touch the stack: it says what comes next.  A
statement whose operands are not bound yet is put back, and the machine waits until someone binds
the variable.
-/

namespace ActorLang

open Kernel (Ident Operand Stmt)

/-- The variables of identifiers, innermost first. -/
abbrev Env := List (Ident × VarId)

/-- The environment with more bindings, of which a later one hides an earlier one. -/
def Env.extend (env : Env) (bindings : List (Ident × VarId)) : Env := bindings.reverse ++ env

/-- Work on the stack of a machine. -/
inductive Frame where
  | stmt (s : Stmt) (env : Env)
  /-- The end of the body of an attempt. -/
  | handler (caught : Ident) (s : Stmt) (env : Env)
  deriving Inhabited

/-- The work of a machine, from top to bottom. -/
abbrev Stack := List Frame

namespace Stack

/-- Puts a statement on the stack.  A catch on top of one of the same label is left out. -/
def push (stack : Stack) (s : Stmt) (env : Env) : Stack :=
  match s, stack with
  | .jumpCatch label, .stmt (.jumpCatch other) _ :: _ =>
    if label = other then stack else .stmt s env :: stack
  | _, _ => .stmt s env :: stack

/-- Unwinds the stack up to the catch of a label. -/
def unwindTo (label : Nat) : Stack → Option Stack
  | [] => none
  | .stmt (.jumpCatch other) _ :: rest => if other = label then some rest else unwindTo label rest
  | _ :: rest => unwindTo label rest

end Stack

/-- What comes next when a statement has been executed. -/
inductive Next where
  /-- What is on the stack. -/
  | rest
  | enter (s : Stmt) (env : Env)
  /-- Statements, one after the other. -/
  | enterAll (stmts : List Stmt) (env : Env)
  /-- The body, under a handler. -/
  | guarded (body : Stmt) (caught : Ident) (handler : Stmt) (env : Env)
  /-- What is below the catch of a label. -/
  | jump (label : Nat)

/-- The stack with what comes next on top. -/
def Next.onStack (stack : Stack) : Next → Except Fault Stack
  | rest => .ok stack
  | enter s env => .ok (stack.push s env)
  | enterAll stmts env => .ok (stmts.foldr (fun s stack => stack.push s env) stack)
  | guarded body caught handler env =>
    .ok (Stack.push (.handler caught handler env :: stack) body env)
  | jump label => match stack.unwindTo label with
    | some stack => .ok stack
    | none => .error (.jump label)

/-- Why a statement stops short. -/
inductive Interrupt where
  /-- It needs a variable that is not bound. -/
  | suspend (v : VarId)
  | throw (v : Value)
  | fault (f : Fault)
  deriving DecidableEq

/-- How a run of a machine ends. -/
inductive Outcome where
  | done
  /-- It waits for a variable. -/
  | suspend (v : VarId)
  /-- A value was thrown and not caught. -/
  | halt (v : Value)
  deriving DecidableEq

/-- An actor that a machine asks its host to start. -/
structure Spawn where
  actor : ActorId
  cfg : Portable

structure Machine where
  store : Store := {}
  stack : Stack := []
  /-- The environment of programs. -/
  root : Env := []
  /-- The statements executed in this run. -/
  steps : Nat := 0
  /-- The statements that a run may execute; zero stands for any number. -/
  maxSteps : Nat := 0
  /-- The actor that the machine belongs to. -/
  self : Option ActorId := none
  spawns : List Spawn := []
  /-- The variables that wait for responses, by the number of the request. -/
  pending : List (Nat × VarId) := []
  nextRequest : Nat := 0
  deriving Inhabited

/-- A machine and what it shares with others. -/
structure Session extends machine : Machine where
  world : World
  deriving Inhabited

/-- Parts of the execution of a statement.  What happened before an interrupt stays. -/
abbrev Exec (α : Type) := ExceptT Interrupt (StateM Session) α

namespace Machine

def isIdle (m : Machine) : Bool := m.stack.isEmpty

def hasPending (m : Machine) : Bool := !m.pending.isEmpty

def onStore {α : Type} (m : Machine) (f : Store → α × Store) : α × Machine :=
  let store := m.store
  let m := { m with store := {} }
  let (a, store) := f store
  (a, { m with store })

def push (m : Machine) (s : Stmt) (env : Env) : Machine :=
  { m with stack := m.stack.push s env }

/-- Puts the application of a procedure to variables on the stack. -/
def pushApply (m : Machine) (proc : Value) (args : List VarId) : Machine :=
  let (p, m) := m.onStore (·.newBound proc)
  let names := (List.range args.length).map fun i => "$arg" ++ toString i
  m.push (.apply (.ident "$proc") (names.map .ident))
    (Env.extend [] (("$proc", p) :: names.zip args))

def declare (m : Machine) (name : Ident) : VarId × Machine :=
  let (v, m) := m.onStore (·.newVar)
  (v, { m with root := m.root.extend [(name, v)] })

/-- Drops what the machine has to do and the responses that it waits for. -/
def abandon (m : Machine) : Machine := { m with stack := [], pending := [] }

def render (m : Machine) (v : Value) : String := m.store.render v

/-- Lets the machine throw a fault before it goes on. -/
def throwLater (m : Machine) (f : Fault) : Machine :=
  let (id, m) := m.onStore (·.newRecord f.record)
  let (v, m) := m.onStore (·.newBound (.record id))
  m.push (.throw (.ident "$failure")) (Env.extend [] [("$failure", v)])

/-- Binds the variable that waits for a response.  If that fails, the machine throws. -/
def respond (m : Machine) (id : Nat) (response : Portable) : Machine :=
  match m.pending.lookup id with
  | none => m
  | some v =>
    let m := { m with pending := m.pending.filter (·.1 != id) }
    match m.onStore (·.importValue response) with
    | (.error e, m) => m.throwLater (.notPortable e)
    | (.ok value, m) => match m.onStore (·.unify (.var v) value) with
      | (.ok (), m) => m
      | (.error e, m) => m.throwLater (.unification e)

end Machine

namespace Exec

def fault {α : Type} (f : Fault) : Exec α := throw (.fault f)

def onMachine {α : Type} (f : Machine → α × Machine) : Exec α :=
  modifyGet fun ⟨machine, world⟩ =>
    let (a, machine) := f machine
    (a, ⟨machine, world⟩)

def onWorld {α : Type} (f : World → α × World) : Exec α :=
  modifyGet fun ⟨machine, world⟩ =>
    let (a, world) := f world
    (a, ⟨machine, world⟩)

def onStore {α : Type} (f : Store → α × Store) : Exec α := onMachine (·.onStore f)

def withStore {α : Type} (f : Store → α) : Exec α := return f (← get).store

/-! ### Operands -/

def lookup (env : Env) (name : Ident) : Exec VarId :=
  match env.lookup name with
  | some v => return v
  | none => fault (.identNotFound name)

/-- The value of an operand, as a field or cell holds it. -/
def leaf (env : Env) : Operand → Exec Leaf
  | .lit l => return .lit l
  | .ident name => return .var (← lookup env name)

def operand (env : Env) (arg : Operand) : Exec Value := return (← leaf env arg).toValue

def operandVars (env : Env) : List Operand → Exec (List VarId)
  | [] => return []
  | .lit l :: rest => do
    let v ← onStore (·.newBound (.lit l))
    return v :: (← operandVars env rest)
  | .ident name :: rest => do
    let v ← lookup env name
    return v :: (← operandVars env rest)

def determined (v : Value) : Exec Datum := do
  match ← withStore (·.resolve v) with
  | .var v => throw (.suspend v)
  | .datum d => return d

def determinedOperand (env : Env) (arg : Operand) : Exec Datum := do
  determined (← operand env arg)

def bind (target : VarId) (v : Value) : Exec Unit := do
  match ← onStore (·.unify (.var target) v) with
  | .ok () => return
  | .error m => fault (.unification m)

/-- Unifies a variable with a new record. -/
def bindRecord (target : VarId) (r : Record) : Exec Unit := do
  let id ← onStore (·.newRecord r)
  bind target (.record id)

def feature (env : Env) (arg : Operand) : Exec Feature := do
  let d ← determinedOperand env arg
  match d.feature? with
  | some f => return f
  | none => fault (.featureType d.typeName)

def features (env : Env) : List Operand → Exec (List Feature)
  | [] => return []
  | arg :: rest => do
    let f ← feature env arg
    return f :: (← features env rest)

def optionalFeature (env : Env) : Option Operand → Exec (Option Feature)
  | none => return none
  | some arg => return some (← feature env arg)

def cell (env : Env) (arg : Operand) : Exec CellId := do
  match ← determinedOperand env arg with
  | .scalar (.cell id) => return id
  | d => fault (.cellType d.typeName)

def select (d : Datum) (f : Feature) : Exec Value := do
  match d with
  | .record id =>
    match ← withStore fun s => (s.record id).get? f with
    | some leaf => return leaf.toValue
    | none => fault (.featureNotFound f (← withStore (·.render (.datum d))))
  | d => fault (.selectType f d.typeName)

def snapshot (v : Value) : Exec Portable := do
  match ← withStore (·.exportValue v) with
  | .ok p => return p
  | .error e => fault (.notPortable e)

end Exec

end ActorLang
