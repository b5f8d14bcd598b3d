import ActorLang.Proofs.Machine.Statements
import ActorLang.Actor.System
import ActorLang.Compile
import Mathlib

/-!
# What machines share

Machines share iterators, the counter of tokens and mailboxes, and nothing else.  A machine changes
only the iterators that it mentions, what it does depends on no others, and it reads no mailbox.
-/

namespace ActorLang

open Kernel (Ident Stmt)

/-- Only these iterators may be mentioned. -/
def Mode.only (I : Nat → Prop) : Mode := { Mode.lax with iterators := I }

/-- Only these iterators may be mentioned and actors that there are, and how new ones are numbered does not matter. -/
def World.known (w : World) (I : Nat → Prop) : Mode where
  valid := False
  iterators i := I i ∧ i < w.iterators.size
  actors := True
  counts := False
  knows id := id < w.mailboxes.size

/-- The machine knows only what it may, and is alone if there are no actors. -/
structure Machine.Abides (M : Mode) (m : Machine) : Prop where
  fits : m.store.Fits M
  alone : M.actors ∨ m.Alone

section

variable {M : Mode} {m : Machine} {value : Value}

namespace Machine

theorem Abides.change (h : m.Abides M) {store : Store} (hstore : store.Fits M) (stack : Stack) :
  { m with store, stack }.Abides M
  := ⟨hstore, h.alone.imp_right fun h => ⟨h.self, h.pending, h.spawns⟩⟩

theorem Abides.unwind (h : m.Abides M) (hv : value.Allowed M) :
  (m.unwind value).2.Abides M
  := by
  cases hbelow : handlerBelow m.stack with
  | none =>
    rw [unwind_of_handlerBelow_none hbelow]
    exact h.change h.fits _
  | some =>
    rw [unwind_of_handlerBelow hbelow]
    exact h.change (@Store.Fits.run _ _ h.fits (.newBound value) hv) _

theorem Abides.faultValue (h : m.Abides M) (f : Fault) :
  (m.faultValue f).2.Abides M
  := by
  refine h.change (@Store.Fits.run _ _ h.fits (.newRecord f.record) ?_) m.stack
  simp [Store.Operation.Allowed, Fault.record, Record.values, Record.error, Leaf.toValue, Leaf.lit, Value.Allowed,
    Value.scalar, Scalar.Fits]

theorem unwind_self (m : Machine) (me : Option ActorId) (value : Value) :
  { m with self := me }.unwind value = ((m.unwind value).1, { (m.unwind value).2 with self := me })
  := by
  cases hbelow : handlerBelow m.stack with
  | none => simp only [unwind, hbelow]
  | some => simp only [unwind, hbelow]; rfl

end Machine

/-- What is done depends on the machine only, and not on the actor that it belongs to. -/
structure Local (M : Mode) (m : Machine) (go : Session → Option Outcome × Session) : Prop where
  same : ∀ me w, go ⟨{ m with self := me }, w⟩ = ((go ⟨m, {}⟩).1, ⟨{ (go ⟨m, {}⟩).2.machine with self := me }, w⟩)
  abides : m.Abides M → (go ⟨m, {}⟩).2.machine.Abides M

theorem local_raise (M : Mode) (m : Machine) (f : Fault) :
  Local M m (·.raise f)
  := by
  refine ⟨fun me w => ?_, fun h => @Machine.Abides.unwind M _ (m.faultValue f).1 (h.faultValue f) nofun⟩
  have hunwind := (m.faultValue f).2.unwind_self me (m.faultValue f).1
  exact congrArg (fun r => (r.1, (⟨r.2, w⟩ : Session))) hunwind

theorem local_proceed (M : Mode) (m : Machine) (next : Next) :
  Local M m (·.proceed next)
  := by
  cases hon : next.onStack m.stack with
  | ok stack =>
    exact ⟨fun me w => by simp [Session.proceed, hon],
      fun h => by simpa [Session.proceed, hon] using h.change h.fits stack⟩
  | error f =>
    obtain ⟨hsame, habides⟩ := local_raise M { m with stack := [] } f
    constructor
    · simpa [Session.proceed, hon] using hsame
    · intro h
      simpa [Session.proceed, hon] using habides (h.change h.fits [])

theorem local_interrupt (frame : Frame) {e : Interrupt} (he : ∀ v, e = .throw v → v.Allowed M) :
  Local M m (·.interrupt frame e)
  := by
  cases e with
  | suspend => exact ⟨fun _ _ => rfl, fun h => h.change h.fits _⟩
  | throw value =>
    refine ⟨fun me w => ?_, fun h => h.unwind (he value rfl)⟩
    exact congrArg (fun r => (r.1, (⟨r.2, w⟩ : Session))) (m.unwind_self me value)
  | fault f => exact local_raise M m f

end

namespace Session

variable {M : Mode} {I : Nat → Prop} {σ : Session} {w u : World} {me : Option ActorId}

/-- The machine knows only what it may, which includes all new iterators. -/
structure Abides (M : Mode) (σ : Session) : Prop where
  machine : σ.machine.Abides M
  fresh : M.counts → ∀ i, σ.world.iterators.size ≤ i → M.iterators i

/-- A step as a machine of another actor, in another world, and what it does to its own. -/
structure Unaffected (M : Mode) (me : Option ActorId) (σ : Session) (next next' : Option Outcome × Session) :
    Prop where
  outcome : next'.1 = next.1
  machine : next'.2.machine = { next.2.machine with self := me }
  kept : next.2.self = σ.self
  like : next.2.world.Like M next'.2.world
  abides : next.2.Abides M
  spares : σ.world.Spares M next.2.world

theorem Abides.unaffected {m : Machine} {go : Session → Option Outcome × Session}
    (hgo : Local M m go) (h : (⟨m, u⟩ : Session).Abides M) (hw : u.Like M w)
    (hkept : m.self = σ.self) (hspares : σ.world.Spares M u) :
  Unaffected M me σ (go ⟨m, u⟩) (go ⟨{ m with self := me }, w⟩)
  := by
  have hown := hgo.same m.self
  rw [show go ⟨m, u⟩ = _ from hown u, hgo.same me w]
  have hown := congrArg (·.2.machine) (hown {})
  exact ⟨rfl, rfl, hkept, hw, ⟨hown ▸ hgo.abides h.machine, h.fresh⟩, hspares⟩

theorem Executes.world_step {s : Stmt} {env : Env} {rest : Stack} {r : Except Interrupt Next} {τ : Session}
    (h : σ.Executes s env rest r τ) :
  σ.step.2.world = τ.world
  := by
  rw [h.step_eq]
  cases r with
  | ok next =>
    dsimp only [proceed]
    cases next.onStack τ.stack <;> rfl
  | error e => cases e <;> rfl

/-- If there are actors, the machine belongs to the same one.  If not, it starts none.  It makes nothing that does
not count. -/
theorem Abides.step (h : σ.Abides M) (hvalid : ¬ M.valid) (hself : M.actors → me = σ.self)
    (hstarts : M.actors ∨ σ.fault? ≠ some .spawnOutsideActor)
    (hmakes : M.counts ∨ σ.step.2.world.made = σ.world.made) (hw : σ.world.Like M w) :
  Unaffected M me σ σ.step (⟨{ σ.machine with self := me }, w⟩ : Session).step
  := by
  have hlocal {go : Session → Option Outcome × Session} (hgo : Local M σ.machine go)
      (hstep : ∀ me w, (⟨{ σ.machine with self := me }, w⟩ : Session).step = go ⟨{ σ.machine with self := me }, w⟩) :
      Unaffected M me σ σ.step (⟨{ σ.machine with self := me }, w⟩ : Session).step := by
    rw [hstep me w, show σ.step = go ⟨σ.machine, σ.world⟩ from hstep _ σ.world]
    exact Abides.unaffected hgo h hw rfl (.refl _ _)
  cases hstack : σ.stack with
  | nil => exact @hlocal (some .done, ·) ⟨fun _ _ => rfl, id⟩ fun me w => step_done hstack
  | cons frame rest =>
    cases frame with
    | handler =>
      exact @hlocal (none, ·.withStack rest) ⟨fun _ _ => rfl, fun h => h.change h.fits rest⟩
        fun me w => step_leave hstack
    | stmt s env =>
      by_cases hlimit : σ.Limited
      · refine @hlocal (·.exhausted) ⟨fun _ _ => rfl, fun h => ?_⟩ fun me w => step_limit hstack hlimit
        exact @Machine.Abides.faultValue _ (σ.withStack []).machine (h.change h.fits []) _
      · have horderly : (σ.popped rest).Orderly M (.all fun _ => True) fun _ => True :=
          ⟨(σ.popped rest).tame_all _, h.machine.fits, h.fresh, (absurd · hvalid),
            h.machine.alone.imp_right fun h => ⟨h.self, h.pending, h.spawns⟩⟩
        rcases Exec.agree_stmt (Exec.aligned_all env s) (σ.popped rest) horderly
          { (σ.popped rest).scene with self := me, world := w } ⟨hself, hw⟩ with
          ⟨-, hcounts, hmade⟩ | ⟨r, τ, W, hrun, -, hτ, hgrown, hends⟩
        · rcases hrun : (Exec.stmt env s).run (σ.popped rest) with ⟨r, τ⟩
          have hexec : σ.Executes s env rest r τ := ⟨hstack, hlimit, hrun⟩
          have hmade : σ.world.made < τ.world.made := by rwa [hrun] at hmade
          rw [← hexec.world_step, hmakes.resolve_left hcounts] at hmade
          exact (Nat.lt_irrefl _ hmade).elim
        have hτ : τ.Abides M := ⟨⟨hτ.fits, hτ.alone⟩, hτ.fresh⟩
        cases hends with
        | starts hactors hr =>
          subst hr
          refine absurd ?_ (hstarts.resolve_left hactors)
          simp only [Session.fault?, hstack, if_neg hlimit, hrun]
        | @alike r' w' hrun' hlike hr =>
          have hwithin : τ.within { (σ.popped rest).scene with self := me, world := w' } =
              ⟨{ τ.machine with self := me }, w'⟩ := by
            rw [Session.within, Session.scene, ← hgrown.stack, ← hgrown.steps]
          rw [hwithin] at hrun'
          have hexec : σ.Executes s env rest r τ := ⟨hstack, hlimit, hrun⟩
          have hexec' : (⟨{ σ.machine with self := me }, w⟩ : Session).Executes s env rest r'
              ⟨{ τ.machine with self := me }, w'⟩ :=
            ⟨hstack, hlimit, hrun'⟩
          cases hr with
          | @ok next _ hfollow =>
            obtain rfl := hfollow.eq_of_self
            rw [hexec.step_ok, hexec'.step_ok]
            exact Abides.unaffected (local_proceed _ _ next) hτ hlike hgrown.self hgrown.world
          | @error e he hfits =>
            rw [hexec.step_error, hexec'.step_error]
            refine Abides.unaffected (local_interrupt _ ?_) hτ hlike hgrown.self hgrown.world
            rintro v rfl
            exact hfits.allowed

theorem spares_step (σ : Session) :
  σ.world.Spares .lax σ.step.2.world
  := by
  have h : σ.Abides .lax :=
    ⟨⟨σ.store.fits_of_all (fun _ => trivial) ⟨trivial, trivial⟩, .inl trivial⟩, fun _ _ _ => trivial⟩
  exact (h.step id (fun _ => rfl) (.inl trivial) (.inl trivial) (.refl _ _)).spares

theorem made_le_iterate (σ : Session) (n : Nat) :
  σ.world.made ≤ ((·.step.2)^[n] σ).world.made
  := by
  induction n generalizing σ with
  | zero => exact Nat.le_refl _
  | succ n ih => exact Nat.le_trans σ.spares_step.made_le (ih σ.step.2)

end Session

/-! ### Two machines -/

/-- Two machines that share a world. -/
structure Duo where
  machines : Bool → Machine
  world : World

namespace Duo

variable {d : Duo} {M : Mode} {J : Nat → Prop} {σ : Session} {one : Bool}

def session (d : Duo) (one : Bool) : Session := ⟨d.machines one, d.world⟩

/-- One of the machines takes a step. -/
def step (d : Duo) (one : Bool) : Duo where
  machines := Function.update d.machines one (d.session one).step.2.machine
  world := (d.session one).step.2.world

/-- The machines take steps in this order. -/
def run (d : Duo) (schedule : List Bool) : Duo := schedule.foldl step d

/-- One of the machines after some steps, as if the other one took none. -/
def alone (d : Duo) (one : Bool) (n : Nat) : Session := (·.step.2)^[n] (d.session one)

/-- The machine mentions only these iterators, and nothing that there is not. -/
def Mentions (d : Duo) (one : Bool) (I : Nat → Prop) : Prop := (d.machines one).store.Fits (d.world.known I)

theorem session_step_self (d : Duo) (one : Bool) :
  (d.step one).session one = (d.session one).step.2
  := by
  simp [session, step]

theorem session_step_other (d : Duo) (one : Bool) :
  (d.step !one).session one = ⟨d.machines one, (d.session !one).step.2.world⟩
  := by
  simp [session, step]

/-- A machine goes on to mention only these iterators and new ones, whatever the other one does. -/
theorem abides_step (h : (d.session one).Abides (.only J)) (who : Bool) :
  ((d.step who).session one).Abides (.only J)
  := by
  rcases Bool.eq_or_eq_not who one with rfl | rfl
  · rw [session_step_self]
    exact (h.step id (fun _ => rfl) (.inl trivial) (.inl trivial) (.refl _ _)).abides
  · rw [session_step_other]
    exact ⟨h.machine, fun _ i hi => h.fresh trivial i (Nat.le_trans (d.session !one).spares_step.size hi)⟩

theorem abides_run (h : (d.session one).Abides (.only J)) (schedule : List Bool) :
  ((d.run schedule).session one).Abides (.only J)
  := by
  induction schedule generalizing d with
  | nil => exact h
  | cons who _ ih => exact ih (abides_step h who)

theorem spares_other (h : (d.session !one).Abides (.only J)) :
  d.world.Spares (.only J) (d.session !one).step.2.world
  := (h.step id (fun _ => rfl) (.inl trivial) (.inl trivial) (.refl _ _)).spares

/-- One of the machines is where it would be on its own, and finds in the world what it would find. -/
structure Follows (M : Mode) (one : Bool) (σ : Session) (d : Duo) : Prop where
  machine : d.machines one = σ.machine
  like : σ.world.Like M d.world
  abides : σ.Abides M
  boxes : ∀ id, M.knows id → id < d.world.mailboxes.size

theorem Follows.own (h : Follows M one σ d) (hvalid : ¬ M.valid) (hactors : M.actors)
    (hmakes : σ.step.2.world.made = σ.world.made) :
  (d.session one).step.1 = σ.step.1 ∧ Follows M one σ.step.2 (d.step one)
  := by
  have hsession : d.session one = ⟨{ σ.machine with self := σ.self }, d.world⟩ := by
    rw [session, h.machine]
  obtain ⟨houtcome, hmachine, hkept, hlike, habides, -⟩ :=
    h.abides.step hvalid (fun _ => (rfl : σ.self = _)) (.inl hactors) (.inr hmakes) h.like
  rw [← hsession] at houtcome hmachine hlike
  rw [← hkept] at hmachine
  refine ⟨houtcome, ?_, hlike, habides, fun id hid => ?_⟩
  · exact (Function.update_self ..).trans hmachine
  · exact Nat.lt_of_lt_of_le (h.boxes id hid) (d.session one).spares_step.mailboxes

theorem Follows.other (h : Follows M one σ d) (hcounts : ¬ M.counts)
    (hother : (d.session !one).Abides (.only fun i => ¬ M.iterators i)) :
  Follows M one σ (d.step !one)
  := by
  have hspares := spares_other hother
  refine ⟨?_, ⟨(absurd · hcounts), (absurd · hcounts), (absurd · hcounts), fun i hi => ?_, fun _ id hid => ?_⟩,
    h.abides, fun id hid => Nat.lt_of_lt_of_le (h.boxes id hid) hspares.mailboxes⟩
  · exact (Function.update_of_ne (Bool.self_ne_not one) ..).trans h.machine
  · have hlt : i < d.world.iterators.size := Nat.lt_of_not_le fun hle => hother.fresh trivial i hle hi
    exact (hspares.iterators i hlt (not_not_intro hi)).trans (h.like.iterators i hi)
  · exact (hspares.isOpen id (h.boxes id hid)).trans (h.like.isOpen hcounts id hid)

theorem Follows.run (h : Follows M one σ d) (hvalid : ¬ M.valid) (hactors : M.actors) (hcounts : ¬ M.counts)
    (hother : (d.session !one).Abides (.only fun i => ¬ M.iterators i)) (schedule : List Bool)
    (hmakes : ((·.step.2)^[schedule.count one] σ).world.made = σ.world.made) :
  Follows M one ((·.step.2)^[schedule.count one] σ) (d.run schedule)
  := by
  induction schedule generalizing σ d with
  | nil => exact h
  | cons who rest ih =>
    have hother' := abides_step hother who
    rcases Bool.eq_or_eq_not who one with rfl | rfl
    · rw [List.count_cons_self, Function.iterate_succ_apply] at hmakes ⊢
      have hle := σ.step.2.made_le_iterate (rest.count who)
      have hstep : σ.step.2.world.made = σ.world.made :=
        Nat.le_antisymm (hmakes ▸ hle) σ.spares_step.made_le
      exact ih (h.own hvalid hactors hstep).2 hother' (hmakes.trans hstep.symm)
    · rw [List.count_cons_of_ne (by simp)] at hmakes ⊢
      exact ih (h.other hcounts hother) hother' hmakes

/-- A machine that mentions none of these iterators will not do so. -/
theorem Mentions.abides {I J : Nat → Prop} (h : d.Mentions one J) (hapart : ∀ i, I i → ¬ J i) :
  (d.session one).Abides (.only fun i => ¬ (d.world.known I).iterators i)
  := by
  refine ⟨⟨h.mono fun a ha => ?_, .inl trivial⟩, fun _ i hi hI => Nat.not_lt.mpr hi hI.2⟩
  rcases a with _ | _ | (_ | _ | i) | _ | _ | _ | _
  case proc.iterator => exact fun hI => hapart i hI.1 ha.1
  case actor => exact ⟨trivial, .inl trivial⟩
  all_goals trivial

end Duo

/-- One machine takes two values from its iterator.  The other one makes an iterator of its own, takes a value from it,
and tells it to an actor. -/
def takers : Duo where
  machines
    | false =>
      { store := { slots := #[.bound (.scalar (.proc (.iterator 0))), .unbound, .unbound] }
        stack :=
          [.stmt (.apply (.ident "it") [.ident "x"]) [("it", 0), ("x", 1)],
            .stmt (.apply (.ident "it") [.ident "y"]) [("it", 0), ("y", 2)]] }
    | true =>
      { store := { slots := #[.bound (.scalar (.proc (.builtin 1 .range))), .bound (.scalar (.actor 0)), .unbound, .unbound] }
        self := some 1
        stack :=
          [.stmt (.apply (.ident "range") [.lit (.int32 0), .lit (.int32 3), .ident "it"]) [("range", 0), ("it", 2)],
            .stmt (.apply (.ident "it") [.ident "x"]) [("it", 2), ("x", 3)],
            .stmt (.selectApply (.ident "peer") [.lit (.str "tell")] [.ident "x"]) [("peer", 1), ("x", 3)]] }
  world := { iterators := #[⟨0, 5, false⟩], mailboxes := #[{}, {}] }

/-- An actor is asked for a value of an iterator. -/
def lending : String :=
  "actor Taker() in
  handle ask it in it() end
end
var it = range(0, 10)
var taker = spawn(Taker.cfg())
var first = taker.ask(it) + 0
it()"

end ActorLang
