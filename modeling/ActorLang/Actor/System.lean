import ActorLang.Actor.Turn

/-!
# Systems of actors

A system runs a program as its first actor, with the actors that it starts.  The actors take turns
in the order of their numbers.  When the program has come to rest, every actor is told to stop once
it has handled what waits for it.
-/

namespace ActorLang

open Kernel (Stmt)

structure System where
  world : World := {}
  actors : Array Actor := #[]
  unstopped : List ActorId := []
  halts : List HaltReport := []
  maxSteps : Nat := 0
  deriving Inhabited

namespace System

def startActor (sys : System) (s : Spawn) : System :=
  let (a, failure) := Actor.start sys.maxSteps s
  let sys := { sys with unstopped := sys.unstopped ++ [s.actor] }
  match failure with
  | none => { sys with actors := sys.actors.push a }
  | some report =>
    let (a, world) := a.stop sys.world
    { sys with actors := sys.actors.push a, world, halts := sys.halts ++ [report] }

def record (sys : System) (e : Events) : System :=
  e.spawns.foldl startActor { sys with halts := sys.halts ++ e.halts }

/-- Lets an actor work until it has nothing to do, for at most `fuel` steps; also whether it did
anything. -/
def poll (index : Nat) : (fuel : Nat) → (moved : Bool) → Actor → System → Bool × System
  | 0, moved, a, sys => (moved, { sys with actors := sys.actors.setIfInBounds index a })
  | fuel + 1, moved, a, sys =>
    let world := sys.world
    let sys := { sys with world := {} }
    match a.step world with
    | (a, world, none) => (moved, { sys with world, actors := sys.actors.setIfInBounds index a })
    | (a, world, some events) => poll index fuel true a ({ sys with world }.record events)

def pollAt (fuel : Nat) (sys : System) (index : Nat) : Bool × System :=
  match sys.actors[index]? with
  | none => (false, sys)
  | some a =>
    let actors := sys.actors
    let sys := { sys with actors := #[] }
    let actors := actors.setIfInBounds index default
    poll index fuel false a { sys with actors }

/-- Lets every actor work in turn, those that are started meanwhile in the next round. -/
def round (fuel : Nat) (sys : System) : Bool × System :=
  (List.range sys.actors.size).foldl (fun (moved, sys) index =>
    let (here, sys) := sys.pollAt fuel index
    (moved || here, sys)) (false, sys)

def tellStop (sys : System) : System :=
  { sys with
    world := sys.unstopped.foldl (fun w actor => Actor.post w actor .stop) sys.world
    unstopped := [] }

/-- How the program has ended. -/
def programEnd? (sys : System) : Option TurnEnd :=
  match sys.actors[0]? with
  | some a => match a.phase with
    | .finished e => some e
    | _ => none
  | none => none

def allStopped (sys : System) : Bool :=
  (sys.actors.toList.drop 1).all fun a => a.phase = .stopped

/-- Runs rounds until the program has ended and all actors have stopped.  Without a result there
were not enough rounds, or nobody can go on. -/
def run : (rounds fuel : Nat) → System → Option System
  | 0, _, _ => none
  | rounds + 1, fuel, sys =>
    match sys.round fuel with
    | (true, sys) => run rounds fuel sys
    | (false, sys) =>
      if sys.programEnd?.isNone then none
      else if !sys.unstopped.isEmpty then run rounds fuel sys.tellStop
      else if sys.allStopped then some sys
      else none

/-- The system of a program, and the variable of its result. -/
def ofProgram (program : Stmt) (maxSteps : Nat) : VarId × System :=
  let (id, world) := ({} : World).newMailbox
  let (result, machine) := (Machine.create maxSteps (some id)).load program
  (result, { world, actors := #[.program id machine], maxSteps })

/-- The report of a system that has come to rest. -/
def evaluation? (sys : System) (result : VarId) : Option Evaluation := do
  let root ← sys.actors[0]?
  let outcome : Outcome ← match sys.programEnd? with
    | some .done => some .done
    | some .suspended => some (.suspend result)
    | some .stopped => some (.suspend result)
    | some (.halted v) => some (.halt v)
    | none => none
  return { root.evaluation result outcome with halts := sys.halts }

end System

/-- Runs a program with the actors that it starts; without a report there was not enough fuel,
or nobody could go on. -/
def runProgram (rounds fuel : Nat) (program : Stmt) (maxSteps : Nat) : Option Evaluation :=
  let (result, sys) := System.ofProgram program maxSteps
  (sys.run rounds fuel).bind (·.evaluation? result)

end ActorLang
