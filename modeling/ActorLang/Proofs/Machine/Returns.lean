import ActorLang.Kernel.Free
import ActorLang.Machine.Basic

/-!
# Computations that succeed

`x.Returns σ a σ'` says that `x`, begun in the session `σ`, gives `a` and ends in `σ'`.
-/

namespace ActorLang

open Kernel (Ident Operand)

def Session.withStore (σ : Session) (t : Store) : Session :=
  { σ with store := t }

@[simp] theorem Session.withStore_store (σ : Session) (t : Store) :
  (σ.withStore t).store = t
  := rfl

@[simp] theorem Session.withStore_withStore (σ : Session) (t u : Store) :
  (σ.withStore t).withStore u = σ.withStore u
  := rfl

namespace Env

variable {α β : Type} [BEq α] [LawfulBEq α] {names : List (α × β)} {x : α}

theorem mem_of_lookup {b : β} (h : names.lookup x = some b) :
  (x, b) ∈ names
  := by
  obtain ⟨before, after, rfl, -⟩ := List.lookup_eq_some_iff.mp h
  simp

theorem lookup_eq_none (h : x ∉ names.map (·.1)) :
  names.lookup x = none
  := by
  rw [List.lookup_eq_none_iff]
  intro b hb
  rw [bne_iff_ne]
  rintro rfl
  exact h (List.mem_map_of_mem hb)

end Env

namespace Exec

variable {α β : Type} {σ σ' σ'' : Session} {name : Ident} {env : Env} {v : VarId} {a : α} {b : β}
variable {x : Exec α} {f : α → Exec β}

/-- The computation succeeds with this result, and leaves this session. -/
def Returns (x : Exec α) (σ : Session) (a : α) (σ' : Session) : Prop :=
  x.run σ = (.ok a, σ')

theorem returns_pure (a : α) (σ : Session) :
  (pure a : Exec α).Returns σ a σ
  := rfl

theorem Returns.run_bind (h : x.Returns σ a σ') (f : α → Exec β) :
  (x >>= f).run σ = (f a).run σ'
  := by
  have hx : x σ = (.ok a, σ') := h
  change ExceptT.bindCont f (x σ).1 (x σ).2 = _
  rw [hx]
  rfl

theorem Returns.bind (h : x.Returns σ a σ') (h' : (f a).Returns σ' b σ'') :
  (x >>= f).Returns σ b σ''
  := (h.run_bind f).trans h'

theorem run_bind_error {e : Interrupt} (h : x.run σ = (.error e, σ')) :
  (x >>= f).run σ = (.error e, σ')
  := by
  have hx : x σ = (.error e, σ') := h
  change ExceptT.bindCont f (x σ).1 (x σ).2 = _
  rw [hx]
  rfl

theorem Returns.of_bind (h : (x >>= f).Returns σ b σ'') :
  ∃ a σ', x.Returns σ a σ' ∧ (f a).Returns σ' b σ''
  := by
  rcases hx : x.run σ with ⟨e | a, σ'⟩
  · cases (run_bind_error hx).symm.trans h
  · exact ⟨a, σ', hx, (Returns.run_bind hx f).symm.trans h⟩

theorem returns_get (σ : Session) :
  (get : Exec Session).Returns σ σ σ
  := rfl

theorem returns_withStore (f : Store → α) (σ : Session) :
  (withStore f).Returns σ (f σ.store) σ
  := rfl

theorem returns_onStore (f : Store → α × Store) (σ : Session) :
  (onStore f).Returns σ (f σ.store).1 (σ.withStore (f σ.store).2)
  := rfl

theorem returns_lookup (h : env.lookup name = some v) (σ : Session) :
  (lookup env name).Returns σ v σ
  := by
  rw [lookup, h]
  apply returns_pure

theorem operand_eq (h : env.lookup name = some v) :
  operand env (.ident name) = pure (.var v)
  := by
  rw [operand, leaf, lookup, h]
  rfl

theorem returns_operand (h : env.lookup name = some v) (σ : Session) :
  (operand env (.ident name)).Returns σ (.var v) σ
  := by
  rw [operand_eq h]
  apply returns_pure

theorem operand_congr {env' : Env} {arg : Operand} (h : ∀ x ∈ arg.idents, env'.lookup x = env.lookup x) :
  operand env' arg = operand env arg
  := by
  cases arg with
  | lit => rfl
  | ident x => rw [operand, operand, leaf, leaf, lookup, lookup, h x (List.mem_singleton_self x)]

theorem returns_determined {v : Value} {d : Datum} (h : σ.store.resolve v = .datum d) :
  (determined v).Returns σ d σ
  := by
  apply (returns_withStore _ σ).bind
  rw [h]
  apply returns_pure

end Exec

end ActorLang
