import ActorLang.Proofs.Machine.Stages
import ActorLang.Proofs.Store.Modes

/-!
# Computations that agree

Executing a statement does not depend on the stack or the count of steps, and does the same under
other names, as long as they stand for the same variables.  `Agree g x y R` says this of two
computations in the stage `g`: begun in sessions that differ in the scene only, they end in such
sessions, with the same ordinary interrupt or with results in the relation `R`, and keep the session
tame.
-/

namespace ActorLang

open Kernel (Ident Operand)
open List

/-! ### Environments -/

namespace Env

variable {env bindings : Env} {x : Ident} {v : VarId}

theorem exists_lookup (h : x ∈ env.map (·.1)) :
  ∃ v, env.lookup x = some v
  := by
  obtain ⟨b, hb, rfl⟩ := mem_map.mp h
  exact Option.isSome_iff_exists.mp (lookup_isSome_iff.mpr ⟨b, hb, beq_self_eq_true _⟩)

theorem lookup_extend_of_mem (h : x ∈ bindings.map (·.1)) :
  ∃ v, (x, v) ∈ bindings ∧ ∀ env : Env, (env.extend bindings).lookup x = some v
  := by
  have hreverse : x ∈ bindings.reverse.map (·.1) := by
    rwa [map_reverse, mem_reverse]
  obtain ⟨v, hv⟩ := exists_lookup hreverse
  refine ⟨v, mem_reverse.mp (mem_of_lookup hv), fun env => ?_⟩
  rw [extend, lookup_append, hv, Option.some_or]

theorem lookup_extend_of_not_mem (h : x ∉ bindings.map (·.1)) :
  (env.extend bindings).lookup x = env.lookup x
  := by
  have hreverse : x ∉ bindings.reverse.map (·.1) := by
    rwa [map_reverse, mem_reverse]
  rw [extend, lookup_append, lookup_eq_none hreverse, Option.none_or]

end Env

/-! ### Tame sessions -/

def Message.Tame (C : Definition → Prop) : Message → Prop
  | .stop => True
  | .data p => p.Tame C

/-- The closures in the messages obey the condition. -/
def World.Tame (C : Definition → Prop) (w : World) : Prop :=
  ∀ box ∈ w.mailboxes, ∀ e ∈ box.queue, e.message.Tame C

/-- What is in view of the machine mentions only what is in view, and its closures obey the
condition. -/
structure Machine.Tame (V : View) (C : Definition → Prop) (m : Machine) : Prop where
  store : m.store.Tame V C
  pending : ∀ b ∈ m.pending, V.vars b.2
  spawns : ∀ s ∈ m.spawns, s.cfg.Tame C

structure Session.Tame (V : View) (C : Definition → Prop) (σ : Session) : Prop where
  machine : σ.machine.Tame V C
  world : σ.world.Tame C

theorem Session.tame_all (σ : Session) (names : Ident → Prop) :
  σ.Tame (.all names) fun _ => True
  := by
  refine ⟨⟨σ.store.tame_all names, fun _ _ => trivial, fun s _ => s.cfg.store.tame_all _⟩, ?_⟩
  intro _ _ e _
  cases e.message with
  | stop => trivial
  | data p => exact p.store.tame_all _

def Session.withStack (σ : Session) (stack : Stack) : Session :=
  { σ with stack }

/-- What the execution of a statement happens in, and does not depend on. -/
structure Scene where
  stack : Stack
  steps : Nat
  self : Option ActorId
  world : World

def Session.scene (σ : Session) : Scene :=
  ⟨σ.stack, σ.steps, σ.self, σ.world⟩

def Session.within (σ : Session) (b : Scene) : Session :=
  ⟨{ σ.machine with stack := b.stack, steps := b.steps, self := b.self }, b.world⟩

/-- What stays as it is while statements are executed. -/
def Machine.settings (m : Machine) : Env × Nat × Option ActorId := (m.root, m.maxSteps, m.self)

/-- The worlds differ only in iterators that may not be mentioned, in mailboxes if there are no actors, and in
all that is new and the content of mailboxes if the numbers do not matter. -/
structure World.Like (M : Mode) (w w' : World) : Prop where
  nextToken : M.counts → w'.nextToken = w.nextToken
  mailboxes : M.counts → M.actors → w'.mailboxes = w.mailboxes
  size : M.counts → w'.iterators.size = w.iterators.size
  iterators : ∀ i, M.iterators i → w'.iterators[i]? = w.iterators[i]?
  isOpen : ¬ M.counts → ∀ id, M.knows id → w'.isOpen id = w.isOpen id

/-- How many tokens, iterators and actors have been made. -/
def World.made (w : World) : Nat := w.nextToken + w.iterators.size + w.mailboxes.size

/-- The world may have got more, and of what there was, only mailboxes have got envelopes and iterators that may be
mentioned have changed. -/
structure World.Spares (M : Mode) (w w' : World) : Prop where
  nextToken : w.nextToken ≤ w'.nextToken
  mailboxes : w.mailboxes.size ≤ w'.mailboxes.size
  size : w.iterators.size ≤ w'.iterators.size
  iterators : ∀ i < w.iterators.size, ¬ M.iterators i → w'.iterators[i]? = w.iterators[i]?
  isOpen : ∀ id < w.mailboxes.size, w'.isOpen id = w.isOpen id

/-- The scene differs from that of the session in what the mode does not care about. -/
structure Scene.Suit (M : Mode) (σ : Session) (b : Scene) : Prop where
  self : M.actors → b.self = σ.self
  world : σ.world.Like M b.world

/-- The machine belongs to no actor, and waits for none. -/
structure Machine.Alone (m : Machine) : Prop where
  self : m.self = none
  pending : m.pending = []
  spawns : m.spawns = []

/-- The session is tame, and what the mode asks for. -/
structure Session.Orderly (M : Mode) (V : View) (C : Definition → Prop) (σ : Session) : Prop where
  tame : σ.Tame V C
  fits : σ.store.Fits M
  fresh : M.counts → ∀ i, σ.world.iterators.size ≤ i → M.iterators i
  sound : M.valid → σ.store.Valid ∧ ∀ v, V.vars v → v < σ.store.slots.size
  alone : M.actors ∨ σ.Alone

/-- The session has gone on without touching the stack, its settings or what was out of view. -/
structure Session.Grown (M : Mode) (V W : View) (σ σ' : Session) : Prop where
  store : Store.Grown V W σ.store σ'.store
  stack : σ'.stack = σ.stack
  steps : σ'.steps = σ.steps
  settings : σ'.settings = σ.settings
  world : σ.world.Spares M σ'.world
  outlives : M.valid → σ'.store.Outlives σ.store

variable {w w' w'' : World} {v : Value} {x y : Ident} {args args' : List Operand} {l : Leaf}
  {target : VarId} {r : Record} {f : Feature} {C : Definition → Prop} {M : Mode} {V W U : View} {g : Stage}

section Sessions

variable {σ σ' σ'' : Session}

theorem World.Like.refl (M : Mode) (w : World) :
  w.Like M w
  := ⟨fun _ => rfl, fun _ _ => rfl, fun _ => rfl, fun _ _ => rfl, fun _ _ _ => rfl⟩

theorem World.Like.eq (h : w.Like M w') (hall : ∀ i, M.iterators i) (hactors : M.actors) (hcounts : M.counts) :
  w' = w
  := by
  have hiterators : w'.iterators = w.iterators := Array.ext_getElem? fun i => h.iterators i (hall i)
  have hmailboxes := h.mailboxes hcounts hactors
  rcases w with ⟨_, _, _⟩
  cases h.nextToken hcounts
  cases hmailboxes
  cases hiterators
  rfl

theorem World.Spares.refl (M : Mode) (w : World) :
  w.Spares M w
  := ⟨Nat.le_refl _, Nat.le_refl _, Nat.le_refl _, fun _ _ _ => rfl, fun _ _ => rfl⟩

theorem World.Spares.trans (h : w.Spares M w') (h' : w'.Spares M w'') :
  w.Spares M w'' where
  nextToken := Nat.le_trans h.nextToken h'.nextToken
  mailboxes := Nat.le_trans h.mailboxes h'.mailboxes
  size := Nat.le_trans h.size h'.size
  iterators i hi hnot := by
    rw [h'.iterators i (Nat.lt_of_lt_of_le hi h.size) hnot, h.iterators i hi hnot]
  isOpen id hid := (h'.isOpen id (Nat.lt_of_lt_of_le hid h.mailboxes)).trans (h.isOpen id hid)

theorem World.Spares.made_le (h : w.Spares M w') :
  w.made ≤ w'.made
  := Nat.add_le_add (Nat.add_le_add h.nextToken h.size) h.mailboxes

theorem Session.Tame.lax (h : σ.Tame V C) :
  σ.Orderly .lax V C
  := ⟨h, σ.store.fits_of_all (fun _ => trivial) ⟨trivial, trivial⟩, fun _ _ _ => trivial, False.elim, .inl trivial⟩

theorem Session.Grown.refl (M : Mode) (V : View) (σ : Session) :
  Session.Grown M V V σ σ
  := ⟨.refl V _, rfl, rfl, rfl, .refl M _, fun _ => .refl _⟩

theorem Session.Grown.trans (h : Session.Grown M U V σ σ') (h' : Session.Grown M V W σ' σ'') :
  Session.Grown M U W σ σ'' where
  store := h.store.trans h'.store
  stack := h'.stack.trans h.stack
  steps := h'.steps.trans h.steps
  settings := h'.settings.trans h.settings
  world := h.world.trans h'.world
  outlives hvalid := (h.outlives hvalid).trans (h'.outlives hvalid)

theorem Session.Grown.self (h : Session.Grown M V W σ σ') :
  σ'.self = σ.self
  := congrArg (·.2.2) h.settings

theorem Session.Grown.within_eq (h : Session.Grown M V W σ σ') (stack : Stack) :
  σ'.within ⟨stack, σ.steps, σ.self, σ'.world⟩ = σ'.withStack stack
  := by
  rw [← h.steps, ← h.self]
  rfl

end Sessions

/-- Whether a fault has nothing to do with names, jumps and actors that there are not. -/
def Fault.isOrdinary : Fault → Bool
  | .identNotFound _ | .jump _ | .sendOutsideActor => false
  | _ => true

/-- The fault is not about a jump, nor about a name that may not be missing. -/
def Fault.Tame (V : View) : Fault → Prop
  | .identNotFound name => V.names name
  | .sendOutsideActor => True
  | f => f.isOrdinary = true

theorem Fault.tame_of_isOrdinary {V : View} {f : Fault} (h : f.isOrdinary = true) :
  f.Tame V
  := by
  cases f <;> first | exact h | cases h

def Interrupt.Tame (V : View) : Interrupt → Prop
  | .suspend _ => True
  | .throw v => v.In V
  | .fault f => f.Tame V

/-- In a valid store, what is waited for is not bound.  What is thrown could be held by a field, and nothing
is sent without actors. -/
def Interrupt.Fits (M : Mode) (V : View) (s : Store) : Interrupt → Prop
  | .suspend v => M.valid → s.slots[v]? = some .unbound
  | .throw v => v.Fits M V
  | .fault f => f = .sendOutsideActor → M.actors

/-! ### Names that correspond -/

/-- Which names of one statement correspond to which names of another. -/
abbrev Pairing := Ident → Ident → Prop

/-- Names that occur and correspond do so in another pairing. -/
def Pairing.Narrows (N N' : Pairing) (list list' : List Ident) : Prop := ∀ x ∈ list, ∀ y ∈ list', N x y → N' x y

/-- The operands are the same but for names that correspond. -/
inductive OperandTwin (N : Pairing) : Operand → Operand → Prop where
  | lit (l : Literal) : OperandTwin N (.lit l) (.lit l)
  | ident {x y : Ident} (h : N x y) : OperandTwin N (.ident x) (.ident y)

section Pairings

variable {N N' : Pairing} {arg arg' : Operand}

theorem Pairing.Narrows.single (h : N.Narrows N' [x] [y]) (hN : N x y) :
  N' x y
  := h x (mem_singleton_self x) y (mem_singleton_self y) hN

theorem OperandTwin.narrow (h : OperandTwin N arg arg') (hN : N.Narrows N' arg.idents arg'.idents) :
  OperandTwin N' arg arg'
  := by
  cases h with
  | lit l => exact .lit l
  | ident h => exact .ident (hN.single h)

end Pairings

namespace Exec

/-! ### Agreement -/

/-- Two results that agree. -/
inductive Agrees {α β : Type} (M : Mode) (V : View) (s : Store) (R : α → β → Prop) :
    Except Interrupt α → Except Interrupt β → Prop where
  | ok {a b} (h : R a b) : Agrees M V s R (.ok a) (.ok b)
  | error {e} (h : e.Tame V) (hfits : e.Fits M V s) : Agrees M V s R (.error e) (.error e)

/-- A computation ends in the same way in another scene, unless it tries to start an actor although there
are none. -/
inductive Ends {α β : Type} (M : Mode) (V : View) (σ : Session) (R : α → β → Prop) (b : Scene)
    (r : Except Interrupt α) (end' : Except Interrupt β × Session) : Prop where
  | alike {r' w} (hend : end' = (r', σ.within { b with world := w })) (hw : σ.world.Like M w)
      (hr : Agrees M V σ.store R r r')
  | starts (hactors : ¬ M.actors) (hr : r = .error (.fault .spawnOutsideActor))

theorem Ends.exists_alike {α β : Type} {σ : Session} {R : α → β → Prop} {b : Scene}
    {r : Except Interrupt α} {end' : Except Interrupt β × Session} (h : Ends M V σ R b r end') (hactors : M.actors) :
  ∃ r' w, end' = (r', σ.within { b with world := w }) ∧ σ.world.Like M w ∧ Agrees M V σ.store R r r'
  := by
  cases h with
  | alike hend hw hr => exact ⟨_, _, hend, hw, hr⟩
  | starts hnone => exact absurd hactors hnone

/-- Something was made, and it does not matter how it is numbered. -/
def Makes (g : Stage) (M : Mode) (σ σ' : Session) : Prop :=
  g.makes = true ∧ ¬ M.counts ∧ σ.world.made < σ'.world.made

/-- Two computations, begun in the session and in a scene that suits it, agree up to this and keep the
session orderly, unless something is made that does not count.  The first one is of the stage.  The relation of
the results is for what is in view afterwards. -/
def AgreeFrom {α β : Type} (g : Stage) (M : Mode) (V : View) (C : Definition → Prop) (σ : Session) (x : Exec α)
    (y : Exec β) (R : View → α → β → Prop) : Prop :=
  ∀ b : Scene, b.Suit M σ → Makes g M σ (x.run σ).2 ∨ ∃ r σ' W, x.run σ = (r, σ') ∧ g.Allows σ (r, σ') ∧ σ'.Orderly M W C ∧
    Session.Grown M V W σ σ' ∧ Ends M W σ' (R W) b r (y.run (σ.within b))

/-- Two computations agree in every orderly session. -/
def Agree {α β : Type} (g : Stage) (M : Mode) (V : View) (C : Definition → Prop) (x : Exec α) (y : Exec β)
    (R : View → α → β → Prop) : Prop :=
  ∀ σ, σ.Orderly M V C → AgreeFrom g M V C σ x y R

/-- The same result, with a property that depends on what is in view. -/
def Same {α : Type} (P : View → α → Prop) (W : View) (a b : α) : Prop := a = b ∧ P W a

/-- The same result, with a property, and nothing new in view. -/
def Still {α : Type} (V : View) (P : α → Prop) (W : View) (a b : α) : Prop :=
  W = V ∧ a = b ∧ P a

abbrev Equal {α : Type} (V : View) : View → α → α → Prop := Still V fun _ => True

/-- The same result, whatever comes into view. -/
abbrev Anyhow {α : Type} : View → α → α → Prop := Same fun _ _ => True

section Combine

variable {α β γ δ : Type} {first : Stage} {f' : β → Exec δ}
variable {R : View → γ → δ → Prop} {x : Exec α} {f : Fault} {y : Exec β} {P : View → α → β → Prop} {σ : Session}

theorem agreeFrom_still {R : View → α → β → Prop} {r : Except Interrupt α} {r' : Except Interrupt β}
    (hσ : σ.Orderly M V C) (hx : x.run σ = (r, σ)) (hy : ∀ b, y.run (σ.within b) = (r', σ.within b))
    (hg : g.Allows σ (r, σ)) (h : Agrees M V σ.store (R V) r r') :
  AgreeFrom g M V C σ x y R
  := fun b hb => .inr ⟨r, σ, V, hx, hg, hσ, .refl M V σ, .alike (hy b) hb.world h⟩

theorem allows_still {r : Except Interrupt α} (h : ∀ v, r ≠ .error (.suspend v)) :
  g.Allows σ (r, σ)
  := Stage.allows_of_addsVars (.refl σ) h g

theorem agree_pure {R : View → α → β → Prop} {a : α} {b : β} (h : R V a b) :
  Agree g M V C (pure a) (pure b) R
  := fun _ hσ => agreeFrom_still hσ rfl (fun _ => rfl) (allows_still nofun) (.ok h)

theorem agree_throw {R : View → α → β → Prop} (h : v.Fits M V) :
  Agree g M V C (throw (.throw v)) (throw (.throw v)) R
  := fun _ hσ => agreeFrom_still hσ rfl (fun _ => rfl) (allows_still nofun) (.error h.inView h)

theorem agreeFrom_suspend {R : View → α → β → Prop} {v : VarId} (hσ : σ.Orderly M V C)
    (h : M.valid → σ.store.slots[v]? = some .unbound) :
  AgreeFrom .looks M V C σ (throw (.suspend v)) (throw (.suspend v)) R
  := agreeFrom_still hσ rfl (fun _ => rfl) (Session.AddsVars.refl σ) (.error trivial h)

theorem agree_tameFault {R : View → α → β → Prop} (h : f.Tame V) (hf : f = .sendOutsideActor → M.actors) :
  Agree g M V C (fault f) (fault f) R
  := fun _ hσ => agreeFrom_still hσ rfl (fun _ => rfl) (allows_still nofun) (.error h hf)

theorem agree_fault {R : View → α → β → Prop} (h : f.isOrdinary = true) :
  Agree g M V C (fault f) (fault f) R
  := agree_tameFault (f.tame_of_isOrdinary h) (by rintro rfl; cases h)

theorem AgreeFrom.followed {rest : Stage} {f : α → Exec γ} (h : AgreeFrom first M V C σ x y P)
    (hf : ∀ W σ', σ'.Orderly M W C → Session.Grown M V W σ σ' → ∀ a b, x.Returns σ a σ' →
      first.Allows σ (Except.ok a, σ') → P W a b → AgreeFrom rest M W C σ' (f a) (f' b) R)
    (herror : ∀ e σ', first.Allows (α := α) σ (.error e, σ') → g.Allows (α := γ) σ (.error e, σ'))
    (hbind : ∀ a σ' r, first.Allows (α := α) σ (.ok a, σ') → rest.Allows (α := γ) σ' r → g.Allows σ r)
    (hrest : rest.makes = true → g.makes = true)
    (hfirst : first.makes = true → g.makes = true ∧ ∀ a τ, ((f a).run τ).2.world = τ.world) :
  AgreeFrom g M V C σ (x >>= f) (y >>= f') R
  := by
  intro b hb
  rcases h b hb with ⟨hmakes, hcounts, hmade⟩ | ⟨r, σ', W, hx, hallows, hσ', hgrown, hends⟩
  · -- what follows leaves the world as it is
    obtain ⟨hmakes, hworld⟩ := hfirst hmakes
    refine .inl ⟨hmakes, hcounts, ?_⟩
    rcases hx : x.run σ with ⟨_ | a, σ'⟩
    all_goals rw [hx] at hmade
    · rwa [run_bind_error hx]
    · rwa [Returns.run_bind hx f, hworld]
  cases hends with
  | starts hactors hr =>
    subst hr
    exact .inr ⟨_, σ', W, run_bind_error hx, herror _ _ hallows, hσ', hgrown, .starts hactors rfl⟩
  | @alike _ w hy hw hr =>
    cases hr with
    | error he hfits =>
      exact .inr ⟨_, σ', W, run_bind_error hx, herror _ _ hallows, hσ', hgrown,
        .alike (run_bind_error hy) hw (.error he hfits)⟩
    | @ok a a' hab =>
      have hb' : { b with world := w }.Suit M σ' := ⟨fun h => (hb.self h).trans hgrown.self.symm, hw⟩
      rcases hf W σ' hσ' hgrown a a' hx hallows hab _ hb' with
        ⟨hmakes, hcounts, hmade⟩ | ⟨r, σ'', W', hx', hallows', hσ'', hgrown', hends⟩
      · refine .inl ⟨hrest hmakes, hcounts, ?_⟩
        rw [Returns.run_bind hx f]
        exact Nat.lt_of_le_of_lt hgrown.world.made_le hmade
      refine .inr ⟨r, σ'', W', (Returns.run_bind hx f).trans hx', hbind a σ' _ hallows hallows', hσ'',
        hgrown.trans hgrown', ?_⟩
      cases hends with
      | starts hactors hr => exact .starts hactors hr
      | alike hy' hw' hr => exact .alike ((Returns.run_bind hy f').trans hy') hw' hr

theorem AgreeFrom.bind [hg : Stage.Opens first g] {f : α → Exec γ} (h : AgreeFrom first M V C σ x y P)
    (hf : ∀ W σ', σ'.Orderly M W C → Session.Grown M V W σ σ' → ∀ a b, x.Returns σ a σ' →
      first.Allows σ (Except.ok a, σ') → P W a b → AgreeFrom g M W C σ' (f a) (f' b) R) :
  AgreeFrom g M V C σ (x >>= f) (y >>= f') R
  := h.followed hf (fun _ _ => hg.error) (fun _ _ _ => hg.bind) id fun hfirst => by simp [hg.makes] at hfirst

theorem Agree.bind [Stage.Opens first g] {f : α → Exec γ} (h : Agree first M V C x y P)
    (hf : ∀ W, V ≤ W → ∀ a b, P W a b → Agree g M W C (f a) (f' b) R) :
  Agree g M V C (x >>= f) (y >>= f') R
  := fun σ hσ => (h σ hσ).bind fun W σ' hσ' hgrown a b _ _ hab =>
    hf W hgrown.store.le a b hab σ' hσ'

theorem Agree.next [Stage.Opens first g] {y : Exec α} {P : α → Prop} {f : α → Exec γ} {f' : α → Exec δ}
    (h : Agree first M V C x y (Still V P)) (hf : ∀ a, P a → Agree g M V C (f a) (f' a) R) :
  Agree g M V C (x >>= f) (y >>= f') R
  := by
  apply h.bind
  rintro _ - a _ ⟨rfl, rfl, ha⟩
  exact hf a ha

theorem Agree.last {f : α → Exec γ} (h : Agree .looksThenActs M V C x y P)
    (hworld : ∀ a τ, ((f a).run τ).2.world = τ.world)
    (hf : ∀ W, V ≤ W → ∀ a b, P W a b → Agree .acts M W C (f a) (f' b) R) :
  Agree .looksThenActs M V C (x >>= f) (y >>= f') R
  := by
  intro σ hσ
  refine (h σ hσ).followed (fun W σ' hσ' hgrown a b _ _ hab => hf W hgrown.store.le a b hab σ' hσ') ?_ ?_
    nofun fun _ => ⟨rfl, hworld⟩
  · exact fun e σ' h => ⟨fun v hv => h.1 v (by cases hv; rfl), h.2⟩
  · exact fun a σ' r h h' => ⟨fun v hv => (h'.1 v hv).elim, h'.2.symm ▸ h.2⟩

theorem AgreeFrom.congr {x' : Exec α} {y' : Exec β} (h : AgreeFrom g M V C σ x y P) (hx : x'.run σ = x.run σ)
    (hy : ∀ b : Scene, b.Suit M σ → y'.run (σ.within b) = y.run (σ.within b)) :
  AgreeFrom g M V C σ x' y' P
  := by
  intro b hb
  rw [hx, hy b hb]
  exact h b hb

theorem AgreeFrom.stage {g' : Stage} (h : AgreeFrom g' M V C σ x y P) (hmakes : g'.makes = false)
    (hg : ∀ r σ', x.run σ = (r, σ') → g'.Allows σ (r, σ') → g.Allows σ (r, σ')) :
  AgreeFrom g M V C σ x y P
  := by
  intro b hb
  rcases h b hb with ⟨hmade, -⟩ | ⟨r, σ', W, hx, hallows, hrest⟩
  · cases hmakes.symm.trans hmade
  · exact .inr ⟨r, σ', W, hx, hg r σ' hx hallows, hrest⟩

theorem Agree.ofActs (h : Agree .acts M V C x y P) :
  Agree .looksThenActs M V C x y P
  := fun σ hσ => (h σ hσ).stage rfl fun _ _ _ h => ⟨fun v hv => (h.1 v hv).elim, h.2.symm ▸ .quiet⟩

theorem agree_fault_bind (h : f.isOrdinary = true) {k : α → Exec γ} {k' : α → Exec δ} :
  Agree g M V C (fault f >>= k) (fault f >>= k') R
  := by
  intro σ hσ
  have hrun {ε : Type} (k : α → Exec ε) (σ : Session) : (fault f >>= k).run σ = (.error (.fault f), σ) := rfl
  exact agreeFrom_still hσ (hrun k σ) (fun _ => hrun k' _) (allows_still nofun)
    (.error (f.tame_of_isOrdinary h) (by rintro rfl; cases h))

theorem agree_unless {c : Prop} [Decidable c] (hf : f.isOrdinary = true) {k : PUnit → Exec γ}
    {k' : PUnit → Exec δ} (hσ : σ.Orderly M V C) (h : ¬ c → AgreeFrom g M V C σ (k ⟨⟩) (k' ⟨⟩) R) :
  AgreeFrom g M V C σ (if c then fault f >>= k else k ⟨⟩) (if c then fault f >>= k' else k' ⟨⟩) R
  := by
  split
  case isTrue => exact agree_fault_bind hf σ hσ
  case isFalse hc => exact h hc

theorem Agree.mono {R : View → α → β → Prop} (h : Agree g M V C x y P) (himp : ∀ W, V ≤ W → ∀ a b, P W a b → R W a b) :
  Agree g M V C x y R
  := by
  intro σ hσ b hb
  refine (h σ hσ b hb).imp_right ?_
  rintro ⟨r, σ', W, hx, hallows, hσ', hgrown, hends⟩
  refine ⟨r, σ', W, hx, hallows, hσ', hgrown, ?_⟩
  cases hends with
  | starts hactors hr => exact .starts hactors hr
  | alike hy hw hr =>
    refine .alike hy hw ?_
    cases hr with
    | ok hab => exact .ok (himp W hgrown.store.le _ _ hab)
    | error he hfits => exact .error he hfits

theorem Agree.anyhow {y : Exec α} {P : α → Prop} (h : Agree g M V C x y (Still V P)) :
  Agree g M V C x y Anyhow
  := h.mono fun _ _ _ _ hsame => ⟨hsame.2.1, trivial⟩

theorem agree_withStore (f : Store → α) {P : α → Prop} (h : ∀ s : Store, s.Tame V C → s.Fits M → P (f s)) :
  Agree g M V C (withStore f) (withStore f) (Still V P)
  := fun _ hσ => agreeFrom_still hσ rfl (fun _ => rfl) (allows_still nofun)
    (.ok ⟨rfl, rfl, h _ hσ.tame.machine.store hσ.fits⟩)

theorem agreeFrom_withStore (f : Store → α) {k : α → Exec γ} {k' : α → Exec δ}
    (h : AgreeFrom g M V C σ (k (f σ.store)) (k' (f σ.store)) R) :
  AgreeFrom g M V C σ (withStore f >>= k) (withStore f >>= k') R
  := h

theorem agree_read (f : Store → α) :
  Agree g M V C (withStore f) (withStore f) (Equal V)
  := agree_withStore f fun _ _ _ => trivial

theorem agreeFrom_onStore {R : View → α → α → Prop} (hσ : σ.Orderly M V C) (op : Store.Operation)
    {f : Store → α × Store} (hf : (f σ.store).2 = op.run σ.store) (hop : op.Allowed M)
    (hadmissible : M.valid → op.Admissible σ.store)
    (hg : g.Allows σ (Except.ok (f σ.store).1, σ.withStore (f σ.store).2))
    (htame : (f σ.store).2.Tame W C)
    (hgrown : Store.Grown V W σ.store (f σ.store).2)
    (hR : R W (f σ.store).1 (f σ.store).1) :
  AgreeFrom g M V C σ (onStore f) (onStore f) R
  := by
  refine fun b hb => .inr ⟨.ok _, _, W, rfl, hg, ⟨⟨⟨htame, ?_, ?_⟩, ?_⟩, ?_, ?_, ?_, ?_⟩,
    ⟨hgrown, rfl, rfl, rfl, .refl M _, ?_⟩, .alike rfl hb.world (.ok hR)⟩
  · exact fun b hb => hgrown.le.vars _ (hσ.tame.machine.pending b hb)
  · exact hσ.tame.machine.spawns
  · exact hσ.tame.world
  · have hfits := hσ.fits.run hop
    rwa [← hf] at hfits
  · exact hσ.fresh
  · intro hvalid
    obtain ⟨hstore, hvars⟩ := hσ.sound hvalid
    have hrun := (hstore.run (hadmissible hvalid)).2
    rw [← hf] at hrun
    refine ⟨hrun, fun v hv => (hgrown.vars v hv).elim (fun hv => ?_) (·.2)⟩
    exact Nat.lt_of_lt_of_le (hvars v hv) hgrown.varsSize
  · exact hσ.alone.imp_right fun h => ⟨h.self, h.pending, h.spawns⟩
  · intro hvalid
    have houtlives := (hσ.sound hvalid).1.outlives_run (hadmissible hvalid)
    rwa [← hf] at houtlives

theorem allows_acts (a : α) (t : Store) :
  Stage.acts.Allows σ (Except.ok a, σ.withStore t)
  := ⟨nofun, rfl⟩

theorem agree_onStore (op : Store.Operation) {f : Store → α × Store} {P : View → α → Prop}
    (hf : ∀ s, (f s).2 = op.run s) (hop : op.Fits M V)
    (hg : ∀ σ : Session, g.Allows σ (Except.ok (f σ.store).1, σ.withStore (f σ.store).2))
    (h : ∀ s : Store, s.Tame V C → s.Makes V C (f s) P) :
  Agree g M V C (onStore f) (onStore f) (Same P)
  := by
  intro σ hσ
  obtain ⟨W, htame, hgrown, hP⟩ := h σ.store hσ.tame.machine.store
  exact agreeFrom_onStore hσ op (hf _) hop.1 (fun hvalid => hop.2 hvalid _ (hσ.sound hvalid).2) (hg σ) htame hgrown
    ⟨rfl, hP⟩

theorem agree_change (op : Store.Operation) {f : Store → α × Store} (hf : ∀ s, (f s).2 = op.run s) (hop : op.Fits M V)
    (h : ∀ s : Store, s.Tame V C → (f s).2.Tame V C ∧ Store.Grown V V s (f s).2) :
  Agree .acts M V C (onStore f) (onStore f) (Equal V)
  := by
  intro σ hσ
  obtain ⟨htame, hgrown⟩ := h σ.store hσ.tame.machine.store
  exact agreeFrom_onStore hσ op (hf _) hop.1 (fun hvalid => hop.2 hvalid _ (hσ.sound hvalid).2) (allows_acts _ _)
    htame hgrown ⟨rfl, rfl, trivial⟩

theorem agree_onWorld (f : World → α × World) {P : α → Prop}
    (hg : ∀ σ : Session, g.Allows σ (Except.ok (f σ.world).1, ⟨σ.machine, (f σ.world).2⟩))
    (htame : ∀ w : World, w.Tame C → (f w).2.Tame C) (hspares : ∀ w : World, w.Spares M (f w).2)
    (hlike : ∀ w w' : World, w.Like M w' → (f w').1 = (f w).1 ∧ (f w).2.Like M (f w').2)
    (hP : ∀ w : World, (M.counts → ∀ i, w.iterators.size ≤ i → M.iterators i) → P (f w).1) :
  Agree g M V C (onWorld f) (onWorld f) (Still V P)
  := by
  intro σ hσ b hb
  obtain ⟨hresult, hw'⟩ := hlike _ b.world hb.world
  refine .inr ⟨.ok (f σ.world).1, ⟨σ.machine, (f σ.world).2⟩, V, rfl, hg σ,
    ⟨⟨hσ.tame.machine, htame _ hσ.tame.world⟩, hσ.fits, ?_, hσ.sound, hσ.alone⟩,
    ⟨.refl V _, rfl, rfl, rfl, hspares _, fun _ => .refl _⟩, .alike rfl hw' (.ok ⟨rfl, hresult.symm, hP _ hσ.fresh⟩)⟩
  exact fun hcounts i hi => hσ.fresh hcounts i (Nat.le_trans (hspares σ.world).size hi)

theorem allows_world {a : α} {w : World} (h : w.mailboxes = σ.world.mailboxes) :
  Stage.acts.Allows σ (Except.ok a, ⟨σ.machine, w⟩)
  := ⟨nofun, by rw [Session.mail, h, Session.mail]⟩

/-- What is made from the world, and then kept by the machine, matters only if the numbers do. -/
theorem agree_making {f : World → α × World} {k : α → Exec γ} (hmade : ∀ w, w.made < (f w).2.made)
    (hworld : ∀ a τ, ((k a).run τ).2.world = τ.world) {R : View → γ → γ → Prop}
    (h : M.counts → AgreeFrom .looksThenActs M V C σ (onWorld f >>= k) (onWorld f >>= k) R) :
  AgreeFrom .looksThenActs M V C σ (onWorld f >>= k) (onWorld f >>= k) R
  := by
  by_cases hcounts : M.counts
  · exact h hcounts
  · refine fun _ _ => .inl ⟨rfl, hcounts, ?_⟩
    have hrun : (onWorld f >>= k).run σ = (k (f σ.world).1).run ⟨σ.machine, (f σ.world).2⟩ := rfl
    rw [hrun, hworld]
    exact hmade σ.world

theorem agree_onMachine (f : Machine → α × Machine) (hactors : M.actors) (hframe : ∀ m stack steps self,
      f { m with stack, steps, self } = ((f m).1, { (f m).2 with stack, steps, self }))
    (hkeep : ∀ m, (f m).2.store = m.store ∧ (f m).2.stack = m.stack ∧ (f m).2.steps = m.steps ∧
      (f m).2.settings = m.settings)
    (h : ∀ m : Machine, m.Tame V C → (f m).2.Tame V C) :
  Agree .anything M V C (onMachine f) (onMachine f) (Equal V)
  := by
  intro σ hσ b hb
  obtain ⟨hstore, hstack, hsteps, hsettings⟩ := hkeep σ.machine
  have hrun : (onMachine f).run (σ.within b) =
      (.ok (f { σ.machine with stack := b.stack, steps := b.steps, self := b.self }).1,
        ⟨(f { σ.machine with stack := b.stack, steps := b.steps, self := b.self }).2, b.world⟩) := rfl
  rw [hframe] at hrun
  refine .inr ⟨.ok _, ⟨(f σ.machine).2, σ.world⟩, V, rfl, trivial,
    ⟨⟨h _ hσ.tame.machine, hσ.tame.world⟩, ?_, hσ.fresh, ?_, .inl hactors⟩, ⟨?_, hstack, hsteps, hsettings, .refl M _, ?_⟩,
    .alike hrun hb.world (.ok ⟨rfl, rfl, trivial⟩)⟩
  · exact hstore.symm ▸ hσ.fits
  · exact hstore.symm ▸ hσ.sound
  · exact hstore.symm ▸ .refl V _
  · exact fun _ => hstore.symm ▸ .refl _

end Combine

section Names

variable {env env' : Env}
variable {a b : Operand}

/-- Two names stand for the same variable, which is in view, or are one name that is missing. -/
inductive SameVar (V : View) (env env' : Env) : Ident → Ident → Prop where
  | bound {x y : Ident} (v : VarId) (hx : env.lookup x = some v) (hy : env'.lookup y = some v)
      (hv : V.vars v) : SameVar V env env' x y
  | missing {x : Ident} (h : V.names x) (hx : env.lookup x = none) (hy : env'.lookup x = none) :
      SameVar V env env' x x

/-- The names stand for the same variable, and both or neither are the result of the program. -/
abbrev SameName (V : View) (env env' : Env) : Pairing := fun x y =>
  SameVar V env env' x y ∧ (x = Kernel.programResult ↔ y = Kernel.programResult)

abbrev SameOperand (V : View) (env env' : Env) : Operand → Operand → Prop := OperandTwin (SameName V env env')

theorem SameVar.mono (h : SameVar V env env' x y) (hle : V ≤ W) :
  SameVar W env env' x y
  := by
  cases h with
  | bound v hx hy hv => exact .bound v hx hy (hle.vars v hv)
  | missing h hx hy => exact .missing (hle.names.symm ▸ h) hx hy

theorem agree_lookup (h : SameVar V env env' x y) :
  Agree .looks M V C (lookup env x) (lookup env' y) (Still V (V.vars ·))
  := by
  cases h with
  | bound v hx hy hv =>
    rw [lookup, lookup, hx, hy]
    exact agree_pure ⟨rfl, rfl, hv⟩
  | missing h hx hy =>
    rw [lookup, lookup, hx, hy]
    exact agree_tameFault h (by simp)

theorem agree_leaf (h : SameOperand V env env' a b) :
  Agree .looks M V C (leaf env a) (leaf env' b) (Still V (Leaf.Fits M V))
  := by
  cases h with
  | lit => exact agree_pure ⟨rfl, rfl, trivial, trivial⟩
  | ident h =>
    apply (agree_lookup h.1).next
    intro v hv
    exact agree_pure ⟨rfl, rfl, hv⟩

theorem agree_operand (h : SameOperand V env env' a b) :
  Agree .looks M V C (operand env a) (operand env' b) (Still V (Value.Fits M V))
  := by
  apply (agree_leaf h).next
  intro l hl
  exact agree_pure ⟨rfl, rfl, hl.toValue⟩

theorem agree_newBound (hv : v.Fits M V) :
  Agree g M V C (onStore (·.newBound v)) (onStore (·.newBound v)) (Same View.vars)
  := by
  intro _ hσ
  obtain ⟨W, htame, hgrown, hnew⟩ := hσ.tame.machine.store.newBound hv.inView
  exact agreeFrom_onStore hσ (.newBound v) rfl hv.allowed (fun hvalid => hv.within hvalid _ (hσ.sound hvalid).2)
    (Stage.allows_of_addsVars ⟨.newBound _ v, rfl⟩ (fun _ h => by cases h) g) htame hgrown ⟨rfl, hnew⟩

theorem agree_operandVars (h : Forall₂ (SameOperand V env env') args args') :
  Agree .looks M V C (operandVars env args) (operandVars env' args') (Same fun W vars => ∀ v ∈ vars, W.vars v)
  := by
  induction args generalizing V args' with
  | nil =>
    cases h
    exact agree_pure ⟨rfl, by simp⟩
  | cons _ rest ih =>
    obtain ⟨_, rest', harg, hrest, rfl⟩ := forall₂_cons_left_iff.mp h
    have hcons (W : View) (hW : V ≤ W) (v : VarId) (hv : W.vars v) :
        Agree .looks M W C (do return v :: (← operandVars env rest)) (do return v :: (← operandVars env' rest'))
          (Same fun W vars => ∀ v ∈ vars, W.vars v) := by
      apply (ih (hrest.imp fun _ _ h => h.narrow fun _ _ _ _ h => ⟨h.1.mono hW, h.2⟩)).bind
      rintro _ hW' vars _ ⟨rfl, hvars⟩
      exact agree_pure ⟨rfl, forall_mem_cons.mpr ⟨hW'.vars v hv, hvars⟩⟩
    cases harg with
    | lit l =>
      apply (agree_newBound (.lit l)).bind
      rintro W hW v _ ⟨rfl, hv⟩
      exact hcons W hW v hv
    | ident hx =>
      apply (agree_lookup hx.1).next
      intro v hv
      exact hcons V V.le_refl v hv

end Names

section Values

variable {env env' : Env}
variable {a b : Operand}

theorem agree_determined (hv : v.Fits M V) :
  Agree .looks M V C (determined v) (determined v) (Still V (Datum.Fits M V))
  := by
  intro σ hσ
  apply agreeFrom_withStore
  have hin := hσ.tame.machine.store.resolve hv.inView
  have hallowed := hσ.fits.resolve hv.allowed
  cases hresolve : σ.store.resolve v with
  | var =>
    refine agreeFrom_suspend hσ fun hvalid => ?_
    obtain ⟨hstore, hvars⟩ := hσ.sound hvalid
    exact hstore.wellFormed.unbound_of_resolve (hv.within hvalid _ hvars) hresolve
  | datum d =>
    rw [hresolve] at hin hallowed
    refine agree_pure ⟨rfl, rfl, ?_⟩ σ hσ
    cases d with
    | scalar a => exact ⟨hin, hallowed a rfl⟩
    | record => trivial

theorem agree_determinedOperand (h : SameOperand V env env' a b) :
  Agree .looks M V C (determinedOperand env a) (determinedOperand env' b) (Still V (Datum.Fits M V))
  := by
  apply (agree_operand h).next
  intro v hv
  exact agree_determined hv

theorem agreeFrom_bind {σ : Session} (hσ : σ.Orderly M V C)
    (htarget : V.vars target) (hv : v.In V) (hallowed : v.Allowed M)
    (hwithin : M.valid → v.Within σ.store) :
  AgreeFrom .acts M V C σ (bind target v) (bind target v) (Equal V)
  := by
  have htarget : (Value.var target).In V := htarget
  obtain ⟨htame, hgrown⟩ := hσ.tame.machine.store.unify htarget hv
  refine (agreeFrom_onStore (R := Equal V) hσ (.unify (.var target) v) rfl ⟨?_, hallowed⟩ ?_ (allows_acts _ _)
    htame hgrown ⟨rfl, rfl, trivial⟩).bind ?_
  · exact nofun
  · exact fun hvalid => ⟨(hσ.sound hvalid).2 target htarget, hwithin hvalid⟩
  · rintro _ σ' hσ' - r _ - - ⟨rfl, rfl, -⟩
    cases r with
    | ok => exact agree_pure ⟨rfl, rfl, trivial⟩ σ' hσ'
    | error => exact agree_fault rfl σ' hσ'

theorem agree_bind (htarget : V.vars target) (hv : v.Fits M V) :
  Agree .acts M V C (bind target v) (bind target v) (Equal V)
  := fun _ hσ => agreeFrom_bind hσ htarget hv.inView hv.allowed fun hvalid => hv.within hvalid _ (hσ.sound hvalid).2

theorem agree_bindRecord (htarget : V.vars target) (hr : ∀ f ∈ r.fields, f.2.Fits M V) :
  Agree .acts M V C (bindRecord target r) (bindRecord target r) (Equal V)
  := by
  intro _ hσ
  obtain ⟨htame, hgrown⟩ := hσ.tame.machine.store.newRecord fun f hf => (hr f hf).inView
  refine (agreeFrom_onStore (R := Equal V) hσ (.newRecord r) rfl ?_ ?_ (allows_acts _ _) htame hgrown
    ⟨rfl, rfl, trivial⟩).bind ?_
  · exact forall_mem_map.mpr fun f hf => (hr f hf).allowed
  · exact fun hvalid => forall_mem_map.mpr fun f hf => (hr f hf).toValue.within hvalid _ (hσ.sound hvalid).2
  · rintro _ _ hσ' - _ _ hid - ⟨rfl, rfl, -⟩
    refine agreeFrom_bind hσ' htarget trivial nofun fun _ => ?_
    cases hid
    simp [Value.record, Value.Within]

theorem agree_feature (h : SameOperand V env env' a b) :
  Agree .looks M V C (feature env a) (feature env' b) (Equal V)
  := by
  apply (agree_determinedOperand h).next
  intro d _
  cases d.feature? with
  | some => exact agree_pure ⟨rfl, rfl, trivial⟩
  | none => exact agree_fault rfl

theorem agree_features (h : Forall₂ (SameOperand V env env') args args') :
  Agree .looks M V C (features env args) (features env' args') (Equal V)
  := by
  induction h with
  | nil => exact agree_pure ⟨rfl, rfl, trivial⟩
  | cons harg _ ih =>
    apply (agree_feature harg).next
    intro f _
    apply ih.next
    intro _ _
    exact agree_pure ⟨rfl, rfl, trivial⟩

theorem agree_optionalFeature {arg arg' : Option Operand} (h : Option.Rel (SameOperand V env env') arg arg') :
  Agree .looks M V C (optionalFeature env arg) (optionalFeature env' arg') (Equal V)
  := by
  cases h with
  | none => exact agree_pure ⟨rfl, rfl, trivial⟩
  | some harg =>
    apply (agree_feature harg).next
    intro f _
    exact agree_pure ⟨rfl, rfl, trivial⟩

theorem agree_cell (h : SameOperand V env env' a b) :
  Agree .looks M V C (cell env a) (cell env' b) (Equal V)
  := by
  apply (agree_determinedOperand h).next
  intro d _
  split
  · exact agree_pure ⟨rfl, rfl, trivial⟩
  · exact agree_fault rfl

theorem get?_forall {P : Leaf → Prop} (hr : ∀ f ∈ r.fields, P f.2) (h : r.get? f = some l) :
  P l
  := by
  obtain ⟨field, hfind, rfl⟩ := Option.map_eq_some_iff.mp h
  exact hr field (mem_of_find?_eq_some hfind)

theorem fits_fields {s : Store} (htame : s.Tame V C) (hfits : s.Fits M) (id : RecordId) :
  ∀ f ∈ (s.record id).fields, f.2.Fits M V
  := fun _ hf => Leaf.fits_of_allowed (htame.field id hf) (hfits.record id (mem_map_of_mem hf))

theorem agree_select {d : Datum} :
  Agree .looks M V C (select d f) (select d f) (Still V (Value.Fits M V))
  := by
  cases d with
  | scalar => exact agree_fault rfl
  | record id =>
    apply (agree_withStore (fun s => (s.record id).get? f) (P := fun l? => ∀ l ∈ l?, l.Fits M V)
      fun s hs hfits l hl => get?_forall (fits_fields hs hfits id) hl).next
    intro l? hl
    cases l? with
    | some l => exact agree_pure ⟨rfl, rfl, (hl l rfl).toValue⟩
    | none =>
      apply (agree_read _).next
      intro _ _
      exact agree_fault rfl

theorem agree_snapshot (hv : v.In V) :
  Agree .looks M V C (snapshot v) (snapshot v) (Still V (Portable.Tame C))
  := by
  apply (agree_withStore (·.exportValue v) (P := fun r => ∀ p, r = .ok p → p.Tame C)
    fun s hs _ p hp => hs.exportValue hv hp).next
  intro r hr
  cases r with
  | ok p => exact agree_pure ⟨rfl, rfl, hr p rfl⟩
  | error => exact agree_fault rfl

end Values

end Exec

end ActorLang
