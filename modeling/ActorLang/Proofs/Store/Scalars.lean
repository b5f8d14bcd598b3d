import ActorLang.Store.Value
import Mathlib.Tactic.Common

/-!
# Equality of scalars

Equality of scalars is symmetric and transitive, and reflexive but for floats that are not
numbers.  It is coarser than identity: the two zeros of a float format are equal, and so are
decimals of the same value but different scales.
-/

namespace ActorLang

/-- The scalar is a float that is not a number. -/
def Scalar.IsNaN : Scalar → Prop
  | .lit (.flt32 x) => x.isNaN = true
  | .lit (.flt64 x) => x.isNaN = true
  | _ => False

namespace Binary

variable {f : BinaryFormat} {x y z : Binary f}

/-- The integer that orders the numbers of a format. -/
def rank? : Binary f → Option Int
  | nan => none
  | number s c => some (if s then -c.val else c.val)

theorem equal_iff_rank? :
  x.equal y = true ↔ ∃ r, x.rank? = some r ∧ y.rank? = some r
  := by
  cases x with
  | nan => simp [equal, compare?, rank?]
  | number =>
    cases y with
    | nan => simp [equal, compare?, rank?]
    | number =>
      simp only [equal, compare?, rank?, decide_eq_true_eq, Option.some.injEq, Std.compare_eq_iff_eq]
      constructor
      · intro h
        exact ⟨_, rfl, h.symm⟩
      · rintro ⟨r, hx, hy⟩
        rw [hx, hy]

theorem equal_self_iff :
  x.equal x = true ↔ x.isNaN = false
  := by
  rw [equal_iff_rank?]
  cases x with
  | nan | number => simp [rank?, isNaN]

theorem equal_symm (h : x.equal y = true) :
  y.equal x = true
  := by
  obtain ⟨r, hx, hy⟩ := equal_iff_rank?.mp h
  exact equal_iff_rank?.mpr ⟨r, hy, hx⟩

theorem equal_trans (h : x.equal y = true) (h' : y.equal z = true) :
  x.equal z = true
  := by
  obtain ⟨r, hx, hy⟩ := equal_iff_rank?.mp h
  obtain ⟨q, hy', hz⟩ := equal_iff_rank?.mp h'
  rw [hy] at hy'
  cases hy'
  exact equal_iff_rank?.mpr ⟨r, hx, hz⟩

end Binary

namespace Decimal

variable {x y z : Decimal}

theorem cmp_eq_iff :
  x.cmp y = .eq ↔ x.signed * tenTo y.scale.val = y.signed * tenTo x.scale.val
  := by
  rw [cmp, Std.compare_eq_iff_eq]

theorem cmp_eq_trans (h : x.cmp y = .eq) (h' : y.cmp z = .eq) :
  x.cmp z = .eq
  := by
  rw [cmp_eq_iff] at *
  have hpos : 0 < tenTo y.scale.val := Nat.pow_pos (by decide)
  -- cross-multiply with the scale of the middle decimal
  apply Int.eq_of_mul_eq_mul_right (a := tenTo y.scale.val) (by omega)
  calc x.signed * tenTo z.scale.val * tenTo y.scale.val
      = x.signed * tenTo y.scale.val * tenTo z.scale.val := by rw [Int.mul_right_comm]
    _ = y.signed * tenTo x.scale.val * tenTo z.scale.val := by rw [h]
    _ = y.signed * tenTo z.scale.val * tenTo x.scale.val := by rw [Int.mul_right_comm]
    _ = z.signed * tenTo y.scale.val * tenTo x.scale.val := by rw [h']
    _ = z.signed * tenTo x.scale.val * tenTo y.scale.val := by rw [Int.mul_right_comm]

end Decimal

namespace Literal

theorem same_iff {x y : Literal} :
  x.same y = true ↔ (∃ a b, x = .flt32 a ∧ y = .flt32 b ∧ a.equal b = true) ∨
    (∃ a b, x = .flt64 a ∧ y = .flt64 b ∧ a.equal b = true) ∨
    (∃ a b, x = .dec128 a ∧ y = .dec128 b ∧ a.cmp b = .eq) ∨
    (x = y ∧ (∀ a, x ≠ .flt32 a) ∧ (∀ a, x ≠ .flt64 a) ∧ ∀ a, x ≠ .dec128 a)
  := by
  cases x <;> cases y <;> simp [same]

theorem same_symm {x y : Literal} (h : x.same y = true) :
  y.same x = true
  := by
  rw [same_iff] at h
  rcases h with ⟨a, b, rfl, rfl, h⟩ | ⟨a, b, rfl, rfl, h⟩ | ⟨a, b, rfl, rfl, h⟩ | ⟨rfl, h⟩
  · apply Binary.equal_symm h
  · apply Binary.equal_symm h
  · simp only [same, Decimal.cmp_eq_iff, beq_iff_eq] at h ⊢
    rw [h]
  · rw [same_iff]
    simp [h]

theorem same_trans {x y z : Literal} (h : x.same y = true) (h' : y.same z = true) :
  x.same z = true
  := by
  rw [same_iff] at h
  rcases h with ⟨a, b, rfl, rfl, h⟩ | ⟨a, b, rfl, rfl, h⟩ | ⟨a, b, rfl, rfl, h⟩ | ⟨rfl, -⟩
  · obtain ⟨c, rfl, hc⟩ : ∃ c, z = .flt32 c ∧ b.equal c = true := by
      simpa [same_iff] using h'
    apply Binary.equal_trans h hc
  · obtain ⟨c, rfl, hc⟩ : ∃ c, z = .flt64 c ∧ b.equal c = true := by
      simpa [same_iff] using h'
    apply Binary.equal_trans h hc
  · obtain ⟨c, rfl, hc⟩ : ∃ c, z = .dec128 c ∧ b.cmp c = .eq := by
      simpa [same_iff] using h'
    simp [same, Decimal.cmp_eq_trans h hc]
  · apply h'

end Literal

namespace Scalar

theorem same_iff {a b : Scalar} :
  a.same b = true ↔ (∃ x y, a = .lit x ∧ b = .lit y ∧ x.same y = true) ∨ (a = b ∧ ∀ x, a ≠ .lit x)
  := by
  cases a <;> cases b <;> simp [same]

theorem same_self {a : Scalar} (h : ¬ a.IsNaN) :
  a.same a = true
  := by
  cases a with
  | lit x =>
    cases x with
    | flt32 | flt64 => simpa [same, Literal.same, Binary.equal_self_iff, IsNaN] using h
    | dec128 => simp [same, Literal.same, Decimal.cmp_eq_iff]
    | _ => simp [same, Literal.same]
  | _ => simp [same]

theorem same_symm {a b : Scalar} (h : a.same b = true) :
  b.same a = true
  := by
  rcases same_iff.mp h with ⟨x, y, rfl, rfl, h⟩ | ⟨rfl, -⟩
  · apply Literal.same_symm h
  · apply h

theorem same_trans {a b c : Scalar} (h : a.same b = true) (h' : b.same c = true) :
  a.same c = true
  := by
  rcases same_iff.mp h with ⟨x, y, rfl, rfl, h⟩ | ⟨rfl, -⟩
  · rcases same_iff.mp h' with ⟨_, z, hy, rfl, h'⟩ | ⟨rfl, hlit⟩
    · cases hy
      apply Literal.same_trans h h'
    · exfalso
      apply hlit y rfl
  · apply h'

end Scalar

end ActorLang
