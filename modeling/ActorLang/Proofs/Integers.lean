import ActorLang.Machine.Apply
import ActorLang.Primitive
import Mathlib.Algebra.Group.Int.Defs

/-!
# Integer arithmetic

An operation on two integers gives the exact result in the wider of their types, and fails if that
type does not have it.
-/

namespace ActorLang

open Exec (integer?)
open Kernel (BinaryPrim)
open Primitive

/-- Whether the type of 64 bits, or the one of 32 bits if not `wide`, has the integer. -/
def fits (wide : Bool) : Int → Bool := if wide then fitsInt64 else fitsInt32

def Literal.ofInt (wide : Bool) (n : Int) : Literal :=
  if wide then .int64 (.ofInt n) else .int32 (.ofInt n)

/-- The operations with their exact results.  Quotients are truncated toward zero. -/
def exactResults (x y : Int) : List (BinaryPrim × Int) :=
  [(.add, x + y), (.sub, x - y), (.mult, x * y), (.div, x.tdiv y), (.mod, x.tmod y)]

/-- The operation divides by zero, or its type does not have the result `r`, or the quotient if it is
the remainder that is asked for. -/
def OutOfRange (op : BinaryPrim) (wide : Bool) (x y r : Int) : Prop :=
  (op = .div ∨ op = .mod) ∧ y = 0 ∨ ¬ fits wide (if op = .mod then x.tdiv y else r)

instance (op : BinaryPrim) (wide : Bool) (x y r : Int) : Decidable (OutOfRange op wide x y r) :=
  inferInstanceAs (Decidable (_ ∨ _))

variable {a b : Datum} {x y n : Int} {w w' : Bool}

theorem fits_iff :
  fits w n ↔ -2 ^ (if w then 63 else 31) ≤ n ∧ n < 2 ^ (if w then 63 else 31)
  := by
  have hlast : ∀ m : Int, n ≤ m - 1 ↔ n < m := fun _ => Int.le_sub_one_iff
  cases w with
  | false => exact decide_eq_true_iff.trans (and_congr_right fun _ => hlast (2 ^ 31))
  | true => exact decide_eq_true_iff.trans (and_congr_right fun _ => hlast (2 ^ 63))

theorem fits_widen (h : fits w n) (w' : Bool) :
  fits (w || w') n
  := by
  rw [fits_iff] at *
  cases w <;> cases w' <;> simp at * <;> omega

theorem fits_of_between (h : fits w x) (hn : 0 ≤ n ∧ n ≤ x ∨ x ≤ n ∧ n ≤ 0) :
  fits w n
  := by
  rw [fits_iff] at *
  omega

/-- A remainder has the sign of what is divided, and is no larger. -/
theorem tmod_between (x y : Int) :
  0 ≤ x.tmod y ∧ x.tmod y ≤ x ∨ x ≤ x.tmod y ∧ x.tmod y ≤ 0
  := by
  have hle : (x.tmod y).natAbs ≤ x.natAbs := Int.natAbs_tmod x y ▸ Nat.mod_le _ _
  rcases Int.le_total 0 x with hx | hx
  · have := Int.tmod_nonneg y hx
    omega
  · have := Int.tmod_nonneg y (Int.neg_nonneg_of_nonpos hx)
    rw [Int.neg_tmod] at this
    omega

theorem eq_of_integer? (h : integer? a = some (x, w)) :
  (∃ n : Int32, a = .scalar (.lit (.int32 n)) ∧ x = n.toInt ∧ w = false)
    ∨ ∃ n : Int64, a = .scalar (.lit (.int64 n)) ∧ x = n.toInt ∧ w = true
  := by
  unfold integer? at h
  split at h <;> cases h
  case h_1 n => exact .inl ⟨n, rfl, rfl, rfl⟩
  case h_2 n => exact .inr ⟨n, rfl, rfl, rfl⟩

theorem fits_of_integer? (h : integer? a = some (x, w)) :
  fits w x
  := by
  obtain ⟨n, -, rfl, rfl⟩ | ⟨n, -, rfl, rfl⟩ := eq_of_integer? h
  · exact fits_iff.mpr ⟨n.le_toInt, n.toInt_lt⟩
  · exact fits_iff.mpr ⟨n.le_toInt, n.toInt_lt⟩

theorem integer?_ofInt (h : fits w n) :
  integer? (.scalar (.lit (.ofInt w n))) = some (n, w)
  := by
  obtain ⟨hle, hlt⟩ := fits_iff.mp h
  cases w with
  | true => exact congrArg (fun n => some (n, true)) (Int64.toInt_ofInt_of_le hle hlt)
  | false => exact congrArg (fun n => some (n, false)) (Int32.toInt_ofInt_of_le hle hlt)

/-- Arithmetic on integers is that of the wider type. -/
theorem arith_of_integers (ha : integer? a = some (x, w)) (hb : integer? b = some (y, w')) (op : BinaryPrim) :
  arith op a b = (integer op (fits (w || w')) x y).map (Literal.ofInt (w || w'))
  := by
  obtain ⟨m, rfl, rfl, rfl⟩ | ⟨m, rfl, rfl, rfl⟩ := eq_of_integer? ha <;>
    obtain ⟨n, rfl, rfl, rfl⟩ | ⟨n, rfl, rfl, rfl⟩ := eq_of_integer? hb
  · cases op <;> rfl
  · rw [← m.toInt_toInt64]
    cases op <;> rfl
  · rw [← n.toInt_toInt64]
    cases op <;> rfl
  · cases op <;> rfl

section

variable {op : BinaryPrim} {r : Int}

theorem fits_of_inRange (hr : (op, r) ∈ exactResults x y) (hx : fits w x) (h : ¬ OutOfRange op w x y r) :
  fits w r
  := by
  have hfits := Decidable.not_not.mp (not_or.mp h).2
  split at hfits
  case isTrue hop =>
    subst hop
    obtain rfl : r = x.tmod y := by simpa [exactResults] using hr
    exact fits_of_between hx (tmod_between x y)
  case isFalse => exact hfits

theorem integer_eq_ok (hr : (op, r) ∈ exactResults x y) (hx : fits w x) (h : ¬ OutOfRange op w x y r) :
  integer op (fits w) x y = .ok r
  := by
  have hfits := fits_of_inRange hr hx h
  obtain ⟨hzero, hquotient⟩ := not_or.mp h
  simp only [exactResults, List.mem_cons] at hr
  rcases hr with ⟨rfl, rfl⟩ | ⟨rfl, rfl⟩ | ⟨rfl, rfl⟩ | ⟨rfl, rfl⟩ | ⟨rfl, rfl⟩ <;>
    simp_all [integer, exactResult?, quotientFits]

theorem integer_eq_error (hr : (op, r) ∈ exactResults x y) (h : OutOfRange op w x y r) :
  ∃ f, integer op (fits w) x y = .error f ∧ f.name = "ArithmeticError"
  := by
  rw [integer]
  split
  case isTrue => exact ⟨_, rfl, rfl⟩
  case isFalse hzero =>
    have hfits := h.resolve_left hzero
    simp only [exactResults, List.mem_cons] at hr
    rcases hr with ⟨rfl, rfl⟩ | ⟨rfl, rfl⟩ | ⟨rfl, rfl⟩ | ⟨rfl, rfl⟩ | ⟨rfl, rfl⟩ <;>
      exact ⟨.integerOverflow, by simp_all [exactResult?, quotientFits], rfl⟩

variable (ha : integer? a = some (x, w)) (hb : integer? b = some (y, w'))

include ha hb

section

variable (hr : (op, r) ∈ exactResults x y)

include hr

theorem arith_eq_ok (h : ¬ OutOfRange op (w || w') x y r) :
  ∃ l, arith op a b = .ok l ∧ integer? (.scalar (.lit l)) = some (r, w || w')
  := by
  have hx := fits_widen (fits_of_integer? ha) w'
  refine ⟨.ofInt (w || w') r, ?_, integer?_ofInt (fits_of_inRange hr hx h)⟩
  rw [arith_of_integers ha hb, integer_eq_ok hr hx h]
  rfl

theorem arith_eq_error (h : OutOfRange op (w || w') x y r) :
  ∃ f, arith op a b = .error f ∧ f.name = "ArithmeticError"
  := by
  obtain ⟨f, hf, hname⟩ := integer_eq_error hr h
  exact ⟨f, by rw [arith_of_integers ha hb, hf]; rfl, hname⟩

theorem inRange_of_ok {l : Literal} (h : arith op a b = .ok l) :
  ¬ OutOfRange op (w || w') x y r
  := by
  intro hrange
  obtain ⟨f, hf, -⟩ := arith_eq_error ha hb hr hrange
  cases hf.symm.trans h

end

theorem arith_of_div {q : Literal} (h : arith .div a b = .ok q) :
  ∃ p m s, arith .mult (.scalar (.lit q)) b = .ok p ∧ arith .mod a b = .ok m ∧
    arith .add (.scalar (.lit p)) (.scalar (.lit m)) = .ok s ∧
    integer? (.scalar (.lit s)) = some (x, w || w')
  := by
  have hx := fits_widen (fits_of_integer? ha) w'
  have hdiv : (BinaryPrim.div, x.tdiv y) ∈ exactResults x y := by simp [exactResults]
  have hmod : (BinaryPrim.mod, x.tmod y) ∈ exactResults x y := by simp [exactResults]
  have hmult : (BinaryPrim.mult, x.tdiv y * y) ∈ exactResults (x.tdiv y) y := by simp [exactResults]
  have hrange := inRange_of_ok ha hb hdiv h
  have hsum : x.tdiv y * y + x.tmod y = x := Int.mul_comm y _ ▸ Int.mul_tdiv_add_tmod x y
  have hadd : (BinaryPrim.add, x) ∈ exactResults (x.tdiv y * y) (x.tmod y) := by simp [exactResults, hsum]
  have hbetween := tmod_between x y
  obtain ⟨_, hq', hq⟩ := arith_eq_ok ha hb hdiv hrange
  cases hq'.symm.trans h
  obtain ⟨m, hm, hremainder⟩ := arith_eq_ok ha hb hmod (by simpa [OutOfRange] using hrange)
  obtain ⟨p, hp, hproduct⟩ := arith_eq_ok hq hb hmult (by simpa [OutOfRange] using fits_of_between hx (by omega))
  obtain ⟨s, hs, htotal⟩ := arith_eq_ok hproduct hremainder hadd (by simpa [OutOfRange] using hx)
  exact ⟨p, m, s, hp, hm, hs, by simpa using htotal⟩

omit hb in
theorem negate_eq_sub {zero : Datum} (hzero : integer? zero = some (0, w)) :
  negate a = arith .sub zero a
  := by
  have hsub : integer .sub (fits w) 0 x = if fits w (-x) then .ok (-x) else .error .integerOverflow := by
    simp [integer, exactResult?, quotientFits]
  rw [arith_of_integers hzero ha, Bool.or_self, hsub]
  -- In both types only the least integer has no opposite.
  obtain ⟨n, rfl, rfl, rfl⟩ | ⟨n, rfl, rfl, rfl⟩ := eq_of_integer? ha
  · have hmin : fits false (-n.toInt) ↔ n ≠ .minValue := by
      have hrange : -2 ^ 31 ≤ n.toInt ∧ n.toInt < 2 ^ 31 := ⟨n.le_toInt, n.toInt_lt⟩
      rw [ne_eq, ← Int32.toInt_inj, show Int32.minValue.toInt = -2 ^ 31 from rfl]
      rw [fits_iff, if_neg Bool.false_ne_true]
      omega
    simp only [negate, hmin]
    by_cases h : n = .minValue <;> simp [h, Except.map, Literal.ofInt]
  · have hmin : fits true (-n.toInt) ↔ n ≠ .minValue := by
      have hrange : -2 ^ 63 ≤ n.toInt ∧ n.toInt < 2 ^ 63 := ⟨n.le_toInt, n.toInt_lt⟩
      rw [ne_eq, ← Int64.toInt_inj, show Int64.minValue.toInt = -2 ^ 63 from rfl]
      rw [fits_iff, if_pos rfl]
      omega
    simp only [negate, hmin]
    by_cases h : n = .minValue <;> simp [h, Except.map, Literal.ofInt]

end

/-- Arithmetic on integers never wraps, and fails if the type does not have the result. -/
theorem integer_arithmetic (ha : integer? a = some (x, w)) (hb : integer? b = some (y, w')) :
  (∀ op r, (op, r) ∈ exactResults x y →
    (¬ OutOfRange op (w || w') x y r →
      ∃ l, arith op a b = .ok l ∧ integer? (.scalar (.lit l)) = some (r, w || w')) ∧
    ((∃ f, arith op a b = .error f ∧ f.name = "ArithmeticError") ↔
      OutOfRange op (w || w') x y r)) ∧
  (∀ q, arith .div a b = .ok q → ∃ p m s, arith .mult (.scalar (.lit q)) b = .ok p ∧
    arith .mod a b = .ok m ∧ arith .add (.scalar (.lit p)) (.scalar (.lit m)) = .ok s ∧
    integer? (.scalar (.lit s)) = some (x, w || w')) ∧
  ∀ zero, integer? zero = some (0, w) → negate a = arith .sub zero a
  := by
  refine ⟨fun op r hr => ⟨arith_eq_ok ha hb hr, fun ⟨f, hf, _⟩ => ?_, arith_eq_error ha hb hr⟩,
    fun q => arith_of_div ha hb, fun zero => negate_eq_sub ha⟩
  apply Classical.byContradiction
  intro hrange
  obtain ⟨l, hl, -⟩ := arith_eq_ok ha hb hr hrange
  cases hl.symm.trans hf

/-- The opposite of the least integer is out of range. -/
theorem integer_arithmetic_least :
  ∃ f, arith .div (.scalar (.lit (.int32 .minValue))) (.scalar (.lit (.int32 (-1)))) = .error f ∧
    f.name = "ArithmeticError"
  := by
  refine ((integer_arithmetic rfl rfl).1 .div (2 ^ 31) ?_).2.mpr ?_
  · decide
  · decide

end ActorLang
