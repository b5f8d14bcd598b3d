import ActorLang.Kernel.Basic
import ActorLang.Store.Record

/-!
# The store

Single-assignment variables, joined by links when they are unified before they are bound, and
the records, closures, actor configurations and cells that values refer to.
-/

namespace ActorLang

open Kernel (Ident Stmt)

/-- The state of a variable. -/
inductive Slot where
  | unbound
  /-- Stands for another variable. -/
  | link (v : VarId)
  | bound (d : Datum)
  deriving DecidableEq, Inhabited

/-- A procedure with the variables that it captures. -/
structure Closure where
  params : List Ident := []
  body : Stmt := .skip
  env : List (Ident × VarId) := []
  deriving Inhabited

/-- A procedure that configures an actor, with the arguments for it. -/
structure ActorCfg where
  cfgtr : ProcId
  args : List VarId
  deriving DecidableEq, Inhabited

structure Store where
  slots : Array Slot := #[]
  cells : Array Leaf := #[]
  records : Array Record := #[]
  procs : Array Closure := #[]
  cfgs : Array ActorCfg := #[]
  deriving Inhabited

namespace Store

/-! ### Looking up -/

/-- Follows at most `n` links. -/
def follow (s : Store) : (n : Nat) → VarId → VarId
  | 0, v => v
  | n + 1, v => match s.slots[v]? with
    | some (.link w) => s.follow n w
    | _ => v

/-- The variable that a variable stands for. -/
def root (s : Store) (v : VarId) : VarId := s.follow s.slots.size v

def datum? (s : Store) (v : VarId) : Option Datum :=
  match s.slots[s.root v]? with
  | some (.bound d) => some d
  | _ => none

/-- The datum behind a value, or the variable that it stands for. -/
def resolve (s : Store) : Value → Value
  | .var v => match s.slots[s.root v]? with
    | some (.bound d) => .datum d
    | _ => .var (s.root v)
  | .datum d => .datum d

def isBound (s : Store) (v : VarId) : Bool := (s.datum? v).isSome

def record (s : Store) (id : RecordId) : Record := s.records.getD id {}

def closure (s : Store) (id : ProcId) : Closure := s.procs.getD id {}

/-- The configuration at a place; where there is none, it has no closure and no arguments. -/
def cfg (s : Store) (id : CfgId) : ActorCfg := s.cfgs.getD id ⟨s.procs.size, []⟩

def cell (s : Store) (id : CellId) : Leaf := s.cells.getD id (.lit .null)

/-- The name of the error record that a value is. -/
def errorName? (s : Store) (v : Value) : Option String :=
  match s.resolve v with
  | .datum (.record id) => (s.record id).errorName?
  | _ => none

/-! ### Growing -/

def newSlot (s : Store) (slot : Slot) : VarId × Store :=
  (s.slots.size, { s with slots := s.slots.push slot })

def newVar (s : Store) : VarId × Store := s.newSlot .unbound

/-- A variable for a value: the one that it stands for, or a new one. -/
def newBound (s : Store) : Value → VarId × Store
  | .var v => (s.root v, s)
  | .datum d => s.newSlot (.bound d)

def newRecord (s : Store) (r : Record) : RecordId × Store :=
  (s.records.size, { s with records := s.records.push r })

def newClosure (s : Store) (c : Closure) : ProcId × Store :=
  (s.procs.size, { s with procs := s.procs.push c })

def newCfg (s : Store) (c : ActorCfg) : CfgId × Store :=
  (s.cfgs.size, { s with cfgs := s.cfgs.push c })

def newCell (s : Store) (content : Leaf) : CellId × Store :=
  (s.cells.size, { s with cells := s.cells.push content })

/-! ### Changing -/

def setSlot (s : Store) (v : VarId) (slot : Slot) : Store :=
  { s with slots := s.slots.setIfInBounds v slot }

def setCell (s : Store) (id : CellId) (content : Leaf) : Store :=
  { s with cells := s.cells.setIfInBounds id content }

end Store

end ActorLang
