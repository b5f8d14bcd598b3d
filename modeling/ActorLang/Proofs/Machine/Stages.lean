import ActorLang.Proofs.Machine.Messages

/-!
# Stages of the execution of a statement

A statement first looks at its operands, and may have to wait, but only adds variables for the
values that it finds.  Then it acts, and does not wait any more.  Among its actions is at most one
letter: a message, or the start of an actor.
-/

namespace ActorLang

/-! ### Adding variables -/

/-- Only variables have been added. -/
structure Store.AddsVars (s t : Store) : Prop where
  slots : s.slots.toList <+: t.slots.toList
  rest : { t with slots := s.slots } = s

namespace Store.AddsVars

variable {s t u : Store}

theorem refl (s : Store) :
  s.AddsVars s
  := ⟨List.prefix_rfl, rfl⟩

theorem trans (h : s.AddsVars t) (h' : t.AddsVars u) :
  s.AddsVars u
  := by
  refine ⟨h.slots.trans h'.slots, ?_⟩
  rw [← h.rest, ← h'.rest]

theorem newSlot (s : Store) (slot : Slot) :
  s.AddsVars (s.newSlot slot).2
  := ⟨by simp [Store.newSlot], rfl⟩

theorem newBound (s : Store) (v : Value) :
  s.AddsVars (s.newBound v).2
  := by
  cases v with
  | var => exact refl s
  | datum => exact newSlot s _

end Store.AddsVars

namespace Session

variable {σ τ υ : Session}

/-- Nothing has changed but that variables have been added. -/
structure AddsVars (σ τ : Session) : Prop where
  store : σ.store.AddsVars τ.store
  rest : τ.withStore σ.store = σ

theorem AddsVars.refl (σ : Session) :
  σ.AddsVars σ
  := ⟨.refl _, rfl⟩

theorem AddsVars.trans (h : σ.AddsVars τ) (h' : τ.AddsVars υ) :
  σ.AddsVars υ
  := by
  refine ⟨h.store.trans h'.store, ?_⟩
  have hrest := congrArg (·.withStore σ.store) h'.rest
  exact hrest.trans h.rest

theorem AddsVars.mail (h : σ.AddsVars τ) :
  τ.mail = σ.mail
  := by
  have hrest := congrArg Session.mail h.rest
  exact hrest

end Session

/-! ### Stages -/

/-- A stage in the execution of a statement. -/
inductive Stage where
  | looks
  | acts
  /-- It looks at its operands, and then it acts. -/
  | looksThenActs
  /-- Nothing is known about it. -/
  | anything

namespace Stage

/-- Whether tokens, iterators and actors may be made. -/
def makes : Stage → Bool
  | looksThenActs => true
  | _ => false

variable {α β : Type} {σ σ' : Session} {p : Portable} {actor me : ActorId}

/-- What a computation of a stage may end with, begun in a session. -/
def Allows {α : Type} (σ : Session) (r : Except Interrupt α × Session) : Stage → Prop
  | looks => σ.AddsVars r.2
  | acts => (∀ v, r.1 ≠ .error (.suspend v)) ∧ r.2.mail = σ.mail
  | looksThenActs => (∀ v, r.1 = .error (.suspend v) → σ.AddsVars r.2) ∧ σ.mail.Act r.2.mail
  | anything => True

theorem allows_of_addsVars {r : Except Interrupt α × Session} (h : σ.AddsVars r.2)
    (hwait : ∀ v, r.1 ≠ .error (.suspend v)) (g : Stage) :
  g.Allows σ r
  := by
  cases g with
  | looks => exact h
  | acts => exact ⟨hwait, h.mail⟩
  | looksThenActs => exact ⟨fun _ _ => h, h.mail ▸ .quiet⟩
  | anything => trivial

/-- A computation of the one stage, and after it one of the other, is one of the other. -/
class Opens (first : outParam Stage) (g : Stage) : Prop where
  makes : first.makes = false
  error {α β : Type} {σ σ' : Session} {e : Interrupt} (h : first.Allows (α := α) σ (.error e, σ')) :
    g.Allows (α := β) σ (.error e, σ')
  bind {α β : Type} {σ σ' : Session} {a : α} {r : Except Interrupt β × Session}
    (h : first.Allows σ (.ok a, σ')) (h' : g.Allows σ' r) : g.Allows σ r

instance : Opens looks looks where
  makes := rfl
  error h := h
  bind h h' := Session.AddsVars.trans h h'

instance : Opens acts acts where
  makes := rfl
  error h := ⟨fun v hv => h.1 v (by cases hv; rfl), h.2⟩
  bind h h' := ⟨h'.1, h'.2.trans h.2⟩

instance : Opens looks looksThenActs where
  makes := rfl
  error h := ⟨fun _ _ => h, Session.AddsVars.mail h ▸ .quiet⟩
  bind h h' := ⟨fun v hv => Session.AddsVars.trans h (h'.1 v hv), Session.AddsVars.mail h ▸ h'.2⟩

instance : Opens anything anything where
  makes := rfl
  error _ := trivial
  bind _ _ := trivial

/-! ### Letters -/

theorem allows_notify (hp : p.IsSnapshot) :
  looksThenActs.Allows σ ((Exec.deliver actor (.notify p)).run σ)
  := by
  rw [Exec.run_deliver]
  cases hsend : σ.world.send? actor (.notify p) with
  | none => exact ⟨nofun, .quiet⟩
  | some => exact ⟨nofun, .tell hp (World.delivered_of_send? hsend)⟩

/-- A request waits for a response before it is known whether it is accepted. -/
theorem allows_request (results : List VarId) (hp : p.IsSnapshot) (hself : σ.self = some me) :
  looksThenActs.Allows σ ((do
    let id ← Exec.newRequest results
    Exec.deliver actor (.request p id me)).run σ)
  := by
  rw [(Exec.returns_newRequest results σ).run_bind, Exec.run_deliver]
  cases hsend : (σ.expecting results).world.send? actor (.request p σ.nextRequest me) with
  | none => exact ⟨nofun, .refused (World.refuses_of_send? hsend)⟩
  | some => exact ⟨nofun, .ask hself hp (World.delivered_of_send? hsend)⟩

end Stage

end ActorLang
