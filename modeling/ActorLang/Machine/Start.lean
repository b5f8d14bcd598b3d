import ActorLang.Machine.Basic

/-!
# New machines

A new machine has the builtins in its environment, grouped in records.
-/

namespace ActorLang

open Kernel (Ident)

namespace Builtin

/-- The records of builtins: their labels, and the builtins by the order of their names. -/
def modules : List (String × List (String × Builtin)) :=
  [("Cell", [("new", .cellNew)]),
   ("Rec", [("assign", .recAssign), ("size", .recSize)]),
   ("Token", [("new", .tokenNew)])]

/-- The builtins that have a name of their own. -/
def procedures : List (String × Builtin) :=
  [("range", .range), ("spawn", .spawn), ("assert_bound", .assertBound)]

end Builtin

namespace Machine

def define (m : Machine) (name : Ident) (v : Value) : Machine :=
  let (v, m) := m.onStore (·.newBound v)
  { m with root := m.root.extend [(name, v)] }

def defineModule (owner : ActorId) (m : Machine) (module : String × List (String × Builtin)) :
    Machine :=
  let fields := module.2.map fun (name, b) =>
    (Feature.str name, Leaf.scalar (.proc (.builtin owner b)))
  let (id, m) := m.onStore (·.newRecord (.ofMap (some (.str module.1)) fields))
  m.define module.1 (.record id)

def create (maxSteps : Nat) (self : Option ActorId) : Machine :=
  let owner := self.getD 0
  let m := Builtin.modules.foldl (defineModule owner) { maxSteps, self }
  Builtin.procedures.foldl
    (fun m (name, b) => m.define name (.scalar (.proc (.builtin owner b)))) m

end Machine

end ActorLang
