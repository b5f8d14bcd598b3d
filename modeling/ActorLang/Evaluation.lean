import ActorLang.Machine.Start
import ActorLang.Machine.Step

/-!
# Evaluation

What is reported of a program that has been run: how it ended, the text of its value, and the
actors that halted on the way.
-/

namespace ActorLang

open Kernel (Stmt programResult)

inductive Status where
  | done
  | suspended
  | halted
  deriving DecidableEq

def Status.name : Status → String
  | done => "Done"
  | suspended => "Suspended"
  | halted => "Halted"

/-- An actor that stopped because nobody caught what it threw. -/
structure HaltReport where
  actor : ActorId
  /-- The name of the error record that was thrown. -/
  name : Option String
  message : String
  deriving DecidableEq

structure Evaluation where
  status : Status
  /-- The value of the program, or what it threw. -/
  value : String
  error : Option String := none
  halts : List HaltReport := []

namespace Machine

/-- The report of a program with this result variable. -/
def evaluation (m : Machine) (result : VarId) : Outcome → Evaluation
  | .done => { status := .done, value := m.render (.var result) }
  | .suspend _ => { status := .suspended, value := m.render (.var result) }
  | .halt v => { status := .halted, value := m.render v, error := m.store.errorName? v }

def load (m : Machine) (program : Stmt) : VarId × Machine :=
  let (result, m) := m.declare programResult
  (result, m.push program m.root)

end Machine

/-- Runs a program on a machine of its own, outside of any actor; without a report the fuel was
not enough. -/
def evaluate (fuel : Nat) (program : Stmt) (maxSteps : Nat) : Option Evaluation :=
  let (result, machine) := (Machine.create maxSteps none).load program
  match Session.run fuel ⟨machine, {}⟩ with
  | (some outcome, s) => some (s.evaluation result outcome)
  | (none, _) => none

end ActorLang
