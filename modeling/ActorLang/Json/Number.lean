import ActorLang.Json.Basic
import ActorLang.Number.Shortest

/-!
# JSON numbers

A number without fraction and exponent is an integer if 64 bits hold it.  Any other is a
floating-point number: the digits that 64 bits hold, scaled by a power of ten.
-/

namespace ActorLang.Json

inductive Numeral where
  | integer (n : Int)
  | real (x : Binary64)

/-- Joins digits to a significand while it fits 64 bits, and returns the digits left over. -/
def significand : Nat → List Char → Nat × List Char
  | n, [] => (n, [])
  | n, c :: rest =>
    let m := 10 * n + (c.toNat - '0'.toNat)
    if m < twoTo 64 then significand m rest else (n, c :: rest)

/-- The floating-point number of a power of ten that has one. -/
def powerOfTen (n : Nat) : Binary64 := .ofDecimal false 1 n

/-- A number multiplied by `10 ^ e`, by steps that the format can hold.  `none` when the result
is infinite. -/
def scaleByTen? (x : Binary64) (e : Int) : (fuel : Nat) → Option Binary64
  | 0 => some x
  | fuel + 1 =>
    if e.natAbs ≤ 308 then
      if 0 ≤ e then
        let y := x.mul (powerOfTen e.natAbs)
        if y.isFinite then some y else none
      else some (x.div (powerOfTen e.natAbs))
    else if x = .zero false then some x
    else if 0 ≤ e then none
    else scaleByTen? (x.div (powerOfTen 308)) (e + 308) fuel

/-- The number with a sign, a significand and a decimal exponent. -/
def real? (negative : Bool) (digits : Nat) (e : Int) : Option Numeral :=
  (scaleByTen? (.ofInt digits) e 4).map fun x => .real (if negative then x.neg else x)

def numeral? (literal : String) : Option Numeral :=
  let cs := literal.toList
  let (negative, cs) := match cs with
    | '-' :: rest => (true, rest)
    | cs => (false, cs)
  let whole := cs.takeWhile Char.isDigit
  let rest := cs.dropWhile Char.isDigit
  let (fraction, rest) := match rest with
    | '.' :: rest => (rest.takeWhile Char.isDigit, rest.dropWhile Char.isDigit)
    | rest => ([], rest)
  let (n, beyond) := significand 0 whole
  if fraction.isEmpty && rest.isEmpty && beyond.isEmpty then
    if !negative then some (.integer n)
    else if n = 0 ∨ twoTo 63 < n then some (.real (Binary.neg (.ofInt n)))
    else some (.integer (-n))
  else
    let (m, unread) := significand n fraction
    match Binary.parseExponent? rest with
    | none => none
    | some e => real? negative m (e + beyond.length - (fraction.length - unread.length : Nat))

end ActorLang.Json
