import ActorLang.Number.Integer

/-!
# Binary floating point

`Binary f` is the type of floating-point numbers of the format `f`.  A magnitude is named by its
*code*, the integer spelled by its exponent and fraction bits: codes are ordered as the magnitudes
they name, and a code is even precisely when its significand is.  The arithmetic operations are
exact arithmetic followed by `BinaryFormat.nearest`, which rounds ties to even codes.
-/

namespace ActorLang

/-- A binary interchange format, given by the widths of its two fields. -/
structure BinaryFormat where
  fraction : Nat
  exponent : Nat

namespace BinaryFormat

def single : BinaryFormat := ⟨23, 8⟩

def double : BinaryFormat := ⟨52, 11⟩

/-- The number of codes that share an exponent field. -/
def binade (f : BinaryFormat) : Nat := twoTo f.fraction

/-- The code of infinity: all exponent bits set. -/
def infinity (f : BinaryFormat) : Nat := (twoTo f.exponent - 1) * f.binade

/-- The exponent of the least positive magnitude, which is a power of two. -/
def minExponent (f : BinaryFormat) : Int := 2 - twoTo (f.exponent - 1) - f.fraction

/-- The significand of the magnitude with code `c`. -/
def significand (f : BinaryFormat) (c : Nat) : Nat :=
  if c < f.binade then c else f.binade + c % f.binade

/-- The exponent of the last place of the magnitude with code `c`. -/
def lastPlace (f : BinaryFormat) (c : Nat) : Int :=
  f.minExponent + (c / f.binade - 1 : Nat)

/-- The fraction `num / den` divided by `2 ^ e`. -/
def scaled (num den : Nat) (e : Int) : Nat × Nat :=
  if 0 ≤ e then (num, den * twoTo e.toNat) else (num * twoTo (-e).toNat, den)

/-- The exponent of the last place to which a positive `num / den` is rounded: the quotient
by it fills the significand, unless the format has no smaller exponent. -/
def targetExponent (f : BinaryFormat) (num den : Nat) : Int :=
  let e : Int := Nat.log2 num - Nat.log2 den - f.fraction
  let (n, d) := scaled num den e
  max f.minExponent (if n / d < f.binade then e - 1 else e)

/-- The code nearest to `num / den`, ties to the even code. -/
def nearest (f : BinaryFormat) (num den : Nat) : Nat :=
  if num = 0 then 0 else
    let e := f.targetExponent num den
    let (n, d) := scaled num den e
    let q := n / d
    let r := n % d
    let q := if d < 2 * r ∨ (d = 2 * r ∧ q % 2 = 1) then q + 1 else q
    min f.infinity ((e - f.minExponent).toNat * f.binade + q)

end BinaryFormat

/-- A floating-point number: a sign and the code of a magnitude, or not a number. -/
inductive Binary (f : BinaryFormat) where
  | nan
  | number (negative : Bool) (code : Fin (f.infinity + 1))
  deriving DecidableEq

abbrev Binary32 := Binary .single

abbrev Binary64 := Binary .double

namespace Binary

variable {f g : BinaryFormat}

instance : Inhabited (Binary f) := ⟨nan⟩

/-- The number with a sign and a code; codes beyond infinity stand for infinity. -/
def ofCode (negative : Bool) (c : Nat) : Binary f :=
  number negative ⟨min c f.infinity, by omega⟩

def zero (negative : Bool) : Binary f := ofCode negative 0

def inf (negative : Bool) : Binary f := ofCode negative f.infinity

def ofFraction (negative : Bool) (num den : Nat) : Binary f :=
  ofCode negative (f.nearest num den)

/-- The number nearest to `m * 2 ^ e` with the given sign. -/
def ofScaled (negative : Bool) (m : Nat) (e : Int) : Binary f :=
  if 0 ≤ e then ofFraction negative (m * twoTo e.toNat) 1
  else ofFraction negative m (twoTo (-e).toNat)

def ofInt (n : Int) : Binary f := ofFraction (n < 0) n.natAbs 1

/-- The number nearest to `m * 10 ^ e`.  Exponents past the range of the format are settled
without computing the power. -/
def ofDecimal (negative : Bool) (m : Nat) (e : Int) : Binary f :=
  let bound : Int := twoTo f.exponent
  if m = 0 ∨ Nat.log2 m + 1 + e < -bound then zero negative
  else if bound < e then inf negative
  else if 0 ≤ e then ofFraction negative (m * tenTo e.toNat) 1
  else ofFraction negative m (tenTo (-e).toNat)

def isNaN : Binary f → Bool
  | nan => true
  | number .. => false

def isFinite : Binary f → Bool
  | nan => false
  | number _ c => c.val < f.infinity

def neg : Binary f → Binary f
  | nan => nan
  | number s c => number (!s) c

/-- The signed significand and the exponent of the magnitude with code `c`. -/
def signed (negative : Bool) (c : Nat) : Int × Int :=
  let m : Int := f.significand c
  (if negative then -m else m, f.lastPlace c)

/-- Two multiples of powers of two as multiples of a common power. -/
def align (a b : Int × Int) : Int × Int × Int :=
  let e := min a.2 b.2
  (a.1 * twoTo (a.2 - e).toNat, b.1 * twoTo (b.2 - e).toNat, e)

/-- The sum, rounded once.  A zero sum is negative only when both terms are. -/
def add : Binary f → Binary f → Binary f
  | number s c, number t d =>
    if c.val = f.infinity then
      if d.val = f.infinity ∧ s ≠ t then nan else number s c
    else if d.val = f.infinity then number t d
    else
      let (a, b, e) := align (signed (f := f) s c) (signed (f := f) t d)
      let sum := a + b
      if sum = 0 then zero (s && t) else ofScaled (sum < 0) sum.natAbs e
  | _, _ => nan

def sub (x y : Binary f) : Binary f := x.add y.neg

def mul : Binary f → Binary f → Binary f
  | number s c, number t d =>
    if c.val = f.infinity ∨ d.val = f.infinity then
      if c.val = 0 ∨ d.val = 0 then nan else inf (s ^^ t)
    else
      ofScaled (s ^^ t) (f.significand c * f.significand d) (f.lastPlace c + f.lastPlace d)
  | _, _ => nan

/-- The quotient, rounded once.  A zero divisor yields an infinity. -/
def div : Binary f → Binary f → Binary f
  | number s c, number t d =>
    if c.val = f.infinity then
      if d.val = f.infinity then nan else inf (s ^^ t)
    else if d.val = f.infinity then zero (s ^^ t)
    else if d.val = 0 then
      if c.val = 0 then nan else inf (s ^^ t)
    else
      let (n, k) := BinaryFormat.scaled (f.significand c) (f.significand d)
        (f.lastPlace d - f.lastPlace c)
      ofFraction (s ^^ t) n k
  | _, _ => nan

/-- The remainder of the quotient truncated toward zero, which is exact and has the sign of
the dividend. -/
def rem : Binary f → Binary f → Binary f
  | number s c, number _ d =>
    if c.val = f.infinity ∨ d.val = 0 then nan
    else if d.val = f.infinity then number s c
    else
      let (a, b, e) := align (signed (f := f) false c) (signed (f := f) false d)
      ofScaled s (a.natAbs % b.natAbs) e
  | _, _ => nan

/-- The order of two numbers, `none` when either is not a number.  The two zeros are equal. -/
def compare? : Binary f → Binary f → Option Ordering
  | number s c, number t d =>
    let a : Int := if s then -c.val else c.val
    let b : Int := if t then -d.val else d.val
    some (compare a b)
  | _, _ => none

/-- Numeric equality: the two zeros are equal, and `nan` differs from itself. -/
def equal (x y : Binary f) : Bool := x.compare? y = some .eq

/-- The nearest number of another format. -/
def convert : Binary f → Binary g
  | nan => nan
  | number s c =>
    if c.val = f.infinity then inf s else ofScaled s (f.significand c) (f.lastPlace c)

end Binary

end ActorLang
