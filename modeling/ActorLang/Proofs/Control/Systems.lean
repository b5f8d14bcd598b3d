import ActorLang.Proofs.Control.Actors
import Mathlib.Logic.Function.Iterate
import Mathlib.Logic.Relation

/-!
# Systems that keep the discipline

A system is watched by keeping a ledger for each of its actors, whose steps may come in any order.
Compiled programs keep the discipline on machines of their own (`Kept.watched`) and in systems
(`held_of_reaches`).
-/

namespace ActorLang

open Kernel (Stmt)

/-! ### Watching machines and systems -/

/-- A session, with the ledger of its run. -/
structure Watched where
  session : Session
  ledger : Ledger := {}

def Watched.next (x : Watched) : Watched := ⟨x.session.step.2, x.session.log x.ledger⟩

def Watched.ofProgram (s : Stmt) (maxSteps : Nat) : Watched :=
  ⟨⟨((Machine.create maxSteps none).load s).2, {}⟩, {}⟩

namespace System

def advance (sys : System) (i : Nat) (a : Actor) : System :=
  let r := a.step sys.world
  { sys with world := r.2.1, actors := sys.actors.setIfInBounds i r.1 }.record (r.2.2.getD {})

/-- A system, with the ledgers of its actors. -/
structure Watched where
  system : System
  ledgers : Nat → Ledger := fun _ => {}

/-- What can happen in a system. -/
inductive Watched.Step : Watched → Watched → Prop where
  | advance {sys} (ledgers : Nat → Ledger) {i a} (h : sys.actors[i]? = some a) : Step
      ⟨sys, ledgers⟩
      ⟨sys.advance i a, fun j => if j = i then a.log sys.world (ledgers i) else ledgers j⟩
  | tellStop {sys ledgers} : Step ⟨sys, ledgers⟩ ⟨sys.tellStop, ledgers⟩

def Watched.Reaches : Watched → Watched → Prop := Relation.ReflTransGen Step

def Watched.ofProgram (s : Stmt) (maxSteps : Nat) : Watched := ⟨(System.ofProgram s maxSteps).2, fun _ => {}⟩

end System

/-! ### Programs -/

namespace Control

variable {V : View} {s : Stmt} {source : String} {a : Actor} {i : Nat}

theorem kept_of_compile (hs : compile source = .ok s) (maxSteps n : Nat) :
  ∃ V, Kept V (Watched.next^[n] (.ofProgram s maxSteps)).session (Watched.next^[n] (.ofProgram s maxSteps)).ledger
  := by
  induction n with
  | zero =>
    obtain ⟨V, hcalm⟩ := calm_load hs maxSteps none (w := {}) (by simp [World.Tame])
    exact ⟨V, hcalm.kept⟩
  | succ n ih =>
    obtain ⟨V, hkept⟩ := ih
    obtain ⟨W, -, hnext⟩ := hkept.step.kept
    rw [Function.iterate_succ_apply']
    exact ⟨W, hnext⟩

/-- The actors of a system keep the discipline. -/
structure Runs (x : System.Watched) : Prop where
  world : x.system.world.Tame Definition.Plain
  actors : ∀ i a, x.system.actors[i]? = some a → ∃ V, Held V a x.system.world (x.ledgers i)
  fresh : ∀ i, x.system.actors.size ≤ i → x.ledgers i = {}

variable {sys : System} {ledgers : Nat → Ledger} {w : World}

section

variable (h : Runs ⟨sys, ledgers⟩)

include h

theorem Runs.withWorld (hw : w.Tame Definition.Plain) :
  Runs ⟨{ sys with world := w }, ledgers⟩ where
  world := hw
  actors i a ha := (h.actors i a ha).imp fun _ ha => ha.withWorld hw
  fresh := h.fresh

theorem Runs.push (ha : Held V a sys.world {}) (unstopped : List ActorId) (halts : List HaltReport) :
  Runs ⟨{ sys with actors := sys.actors.push a, unstopped, halts }, ledgers⟩ where
  world := h.world
  actors i b hb := by
    rw [Array.getElem?_push] at hb
    split at hb
    next hi =>
      cases hb
      have hfresh : ledgers i = {} := h.fresh i (Nat.le_of_eq hi.symm)
      refine ⟨V, ?_⟩
      dsimp only
      rw [hfresh]
      exact ha
    next => exact h.actors i b hb
  fresh i hi := by
    rw [Array.size_push] at hi
    exact h.fresh i (Nat.le_of_succ_le hi)

theorem Runs.startActor {s : Spawn} (hs : s.cfg.Tame Definition.Plain) :
  Runs ⟨sys.startActor s, ledgers⟩
  := by
  obtain ⟨V, hheld, hrests⟩ := held_start sys.maxSteps hs h.world
  rw [System.startActor]
  dsimp only
  split
  next => exact h.push hheld _ _
  next report hreport =>
    have hstopped := (hrests report hreport).stop
    exact (h.withWorld hstopped.machine.tame.world).push hstopped _ _

theorem Runs.record {e : Events} (he : ∀ s ∈ e.spawns, s.cfg.Tame Definition.Plain) :
  Runs ⟨sys.record e, ledgers⟩
  := by
  have hfold (spawns : List Spawn) (hspawns : ∀ s ∈ spawns, s.cfg.Tame Definition.Plain)
      (sys : System) (h : Runs ⟨sys, ledgers⟩) : Runs ⟨spawns.foldl System.startActor sys, ledgers⟩ := by
    induction spawns generalizing sys with
    | nil => exact h
    | cons s _ ih =>
      obtain ⟨hs, hspawns⟩ := List.forall_mem_cons.mp hspawns
      exact ih hspawns _ (h.startActor hs)
  exact hfold e.spawns he { sys with halts := sys.halts ++ e.halts } ⟨h.world, h.actors, h.fresh⟩

theorem Runs.advance (ha : sys.actors[i]? = some a) :
  Runs ⟨sys.advance i a, fun j => if j = i then a.log sys.world (ledgers i) else ledgers j⟩
  := by
  have hi : i < sys.actors.size := (Array.getElem?_eq_some_iff.mp ha).1
  obtain ⟨V, hheld⟩ := h.actors i a ha
  obtain ⟨⟨W, hnext⟩, hspawns⟩ := hheld.step
  have hworld := hnext.machine.tame.world
  refine Runs.record ⟨hworld, ?_, ?_⟩ ?_
  · intro j b hb
    dsimp only at hb ⊢
    rw [Array.getElem?_setIfInBounds] at hb
    split at hb
    next hij =>
      obtain rfl := hij
      cases hb
      rw [if_pos rfl]
      exact ⟨W, hnext⟩
    next hij =>
      rw [if_neg (Ne.symm hij)]
      exact (h.actors j b hb).imp fun _ hb => hb.withWorld hworld
  · intro j hj
    dsimp only at hj ⊢
    rw [Array.size_setIfInBounds] at hj
    rw [if_neg (Nat.ne_of_gt (Nat.lt_of_lt_of_le hi hj))]
    exact h.fresh j hj
  · intro s hs
    cases hevents : (a.step sys.world).2.2 with
    | none =>
      rw [hevents] at hs
      cases hs
    | some events =>
      rw [hevents] at hs
      exact hspawns events hevents s hs

end

theorem Runs.step {x y : System.Watched} (h : Runs x) (hstep : x.Step y) :
  Runs y
  := by
  cases hstep with
  | advance _ ha => exact h.advance ha
  | @tellStop sys _ =>
    have hfold (actors : List ActorId) (w : World) (hw : w.Tame Definition.Plain) :
        (actors.foldl (fun w actor => Actor.post w actor .stop) w).Tame Definition.Plain := by
      induction actors generalizing w with
      | nil => exact hw
      | cons actor _ ih => exact ih _ (hw.post actor trivial)
    have hworld := h.withWorld (hfold sys.unstopped sys.world h.world)
    exact ⟨hworld.world, hworld.actors, hworld.fresh⟩

theorem Runs.reaches {x y : System.Watched} (h : Runs x) (hxy : x.Reaches y) :
  Runs y
  := by
  induction hxy with
  | refl => exact h
  | tail _ hstep ih => exact ih.step hstep

theorem held_of_reaches (hs : compile source = .ok s) (maxSteps : Nat) {x : System.Watched}
    (hx : System.Watched.Reaches (.ofProgram s maxSteps) x) (ha : x.system.actors[i]? = some a) :
  ∃ V, Held V a x.system.world (x.ledgers i)
  := by
  have hstart : Runs (.ofProgram s maxSteps) := by
    have hw : World.Tame Definition.Plain (({} : World).newMailbox).2 :=
      Exec.tame_newMailbox (by simp [World.Tame])
    have hempty : Runs ⟨{ world := (({} : World).newMailbox).2, maxSteps }, fun _ => {}⟩ :=
      ⟨hw, by simp, fun _ _ => rfl⟩
    obtain ⟨V, hcalm⟩ := calm_load hs maxSteps (some ({} : World).newMailbox.1) hw
    have hrests : Rests V { id := 0, machine := _, phase := .idle } _ {} :=
      ⟨hcalm, ⟨trivial, trivial⟩, by simp⟩
    exact hempty.push (hrests.work (t := .program) trivial) [] []
  exact (hstart.reaches hx).actors i a ha

end Control

end ActorLang
