import ActorLang.Lowering.Basic
import Mathlib.Tactic.Common

/-!
# Written and generated names

Lowering generates names from a counter.  All of them start with `$`, which no written name
does, and two of them are equal only if they were generated at once.
-/

namespace ActorLang

open Kernel (Ident)

/-- A name as programs spell them. -/
def Written (name : Ident) : Prop := name.toList.head? ≠ some '$'

instance (name : Ident) : Decidable (Written name) := inferInstanceAs (Decidable (_ ≠ _))

variable {c c' : Context} {n m low high middle : Nat} {name : Ident}

namespace Lowering

/-! ### Runs -/

section Runs

variable {α β : Type} {c c' : Context}

theorem bind_eq_ok_iff {x : Lower α} {f : α → Lower β} {b : β} :
  (x >>= f) c = .ok (b, c') ↔ ∃ a d, x c = .ok (a, d) ∧ f a d = .ok (b, c')
  := by
  change (Except.bind (x c) fun p => f p.1 p.2) = _ ↔ _
  cases x c with
  | error => simp [Except.bind]
  | ok p =>
    obtain ⟨a, d⟩ := p
    simp [Except.bind]

theorem pure_eq_ok_iff {a b : α} :
  (pure a : Lower α) c = .ok (b, c') ↔ a = b ∧ c = c'
  := by
  change Except.ok (a, c) = .ok (b, c') ↔ _
  simp

theorem fail_ne_ok {cause : LowerCause} {span : Span} {b : α} :
  (fail cause span : Lower α) c ≠ .ok (b, c')
  := by
  intro h
  cases h

end Runs

/-! ### Generated names -/

def tempName (n : Nat) : Ident := "$v" ++ toString n

def anonymousName (n : Nat) : Ident := "$a" ++ toString n

theorem freshTemp_eq_ok_iff :
  freshTemp c = .ok (name, c') ↔ tempName c.next = name ∧ { c with next := c.next + 1 } = c'
  := by
  change Except.ok (tempName c.next, { c with next := c.next + 1 }) = .ok (name, c') ↔ _
  simp

theorem freshAnonymous_eq_ok_iff :
  freshAnonymous c = .ok (name, c') ↔ anonymousName c.next = name ∧ { c with next := c.next + 1 } = c'
  := by
  change Except.ok (anonymousName c.next, { c with next := c.next + 1 }) = .ok (name, c') ↔ _
  simp

theorem toString_nat_injective (h : (toString m).toList = (toString n).toList) :
  m = n
  := by
  -- the number is the value of the digits that it is written with
  have hvalue := congrArg (Nat.ofDigitChars 10 · 0) h
  simpa only [Nat.toString_eq_ofList_toDigits, String.toList_ofList, Nat.ofDigitChars_ten_toDigits] using hvalue

theorem tempName_injective (h : tempName m = tempName n) :
  m = n
  := by
  have h := congrArg String.toList h
  simp only [tempName, String.toList_append, List.append_cancel_left_eq] at h
  apply toString_nat_injective h

theorem anonymousName_injective (h : anonymousName m = anonymousName n) :
  m = n
  := by
  have h := congrArg String.toList h
  simp only [anonymousName, String.toList_append, List.append_cancel_left_eq] at h
  apply toString_nat_injective h

theorem tempName_ne_anonymousName (m n : Nat) :
  tempName m ≠ anonymousName n
  := by
  intro h
  have h := congrArg String.toList h
  simp [tempName, anonymousName] at h

theorem not_written_tempName (n : Nat) :
  ¬ Written (tempName n)
  := by
  simp [Written, tempName]

theorem not_written_anonymousName (n : Nat) :
  ¬ Written (anonymousName n)
  := by
  simp [Written, anonymousName]

/-- A name for a temporary or a nameless part, generated between two states of the counter. -/
def Generated (low high : Nat) (name : Ident) : Prop :=
  ∃ n, low ≤ n ∧ n < high ∧ (name = tempName n ∨ name = anonymousName n)

theorem Generated.not_written (h : Generated low high name) :
  ¬ Written name
  := by
  obtain ⟨n, -, -, rfl | rfl⟩ := h
  · apply not_written_tempName
  · apply not_written_anonymousName

theorem Generated.mono {low' high' : Nat} (h : Generated low high name) (hlow : low' ≤ low) (hhigh : high ≤ high') :
  Generated low' high' name
  := by
  obtain ⟨n, _, _, hname⟩ := h
  exact ⟨n, by omega, by omega, hname⟩

theorem Generated.disjoint (h : Generated low middle name) (h' : Generated middle high name) :
  False
  := by
  obtain ⟨n, -, _, hname⟩ := h
  obtain ⟨m, _, -, hname'⟩ := h'
  have hnm : n = m := by
    rcases hname with rfl | rfl <;> rcases hname' with h | h
    · apply tempName_injective h
    · exfalso
      apply tempName_ne_anonymousName _ _ h
    · exfalso
      apply tempName_ne_anonymousName _ _ h.symm
    · apply anonymousName_injective h
  omega

end Lowering

end ActorLang
