import ActorLang.Number.Integer

/-!
# Fixed-point decimals

A `Decimal` is a sign, a mantissa of at most 96 bits and a scale of at most 28 fraction digits.
Sums and products are exact when they fit and otherwise lose as few digits as possible, rounded half
to even (`fit?`).  Quotients are computed while the mantissa has room, and remainders of wide
divisors by a long division in digits of 32 bits (`longRemainder`).  Equal values may have different
scales, and the text of a decimal shows its scale.
-/

namespace ActorLang

/-- The bound of mantissas, `2 ^ 96`. -/
def Decimal.bound : Nat := 79228162514264337593543950336

/-- A decimal with a 96-bit mantissa and at most 28 fraction digits. -/
structure Decimal where
  negative : Bool
  mantissa : Fin Decimal.bound
  scale : Fin 29
  deriving DecidableEq

namespace Decimal

def maxScale : Nat := 28

def ofSignedParts? (negative : Bool) (mantissa scale : Nat) : Option Decimal :=
  if h : mantissa < bound ∧ scale < 29 then
    some ⟨negative, ⟨mantissa, h.1⟩, ⟨scale, h.2⟩⟩
  else none

/-- The decimal with these parts, if they are in range.  A zero is not negative. -/
def ofParts? (negative : Bool) (mantissa scale : Nat) : Option Decimal :=
  ofSignedParts? (negative && mantissa != 0) mantissa scale

/-- The zero without fraction digits. -/
def zero : Decimal := ⟨false, ⟨0, by decide⟩, 0⟩

instance : Inhabited Decimal := ⟨zero⟩

def isZero (x : Decimal) : Bool := x.mantissa.val = 0

/-- The decimal with the other sign; a zero may become negative. -/
def neg (x : Decimal) : Decimal := { x with negative := !x.negative }

def signed (x : Decimal) : Int := if x.negative then -x.mantissa.val else x.mantissa.val

/-! ### Order -/

def cmp (x y : Decimal) : Ordering :=
  compare (x.signed * tenTo y.scale.val) (y.signed * tenTo x.scale.val)

/-! ### Rounding into range -/

/-- `n / d` rounded to the nearest integer, half to even. -/
def roundHalfEven (n d : Nat) : Nat :=
  let q := n / d
  let r := n % d
  if d < 2 * r ∨ (d = 2 * r ∧ q % 2 = 1) then q + 1 else q

/-- The least number of digits, at least `r`, whose removal leaves a mantissa in range. -/
def excessDigits (n : Nat) : (fuel r : Nat) → Nat
  | 0, r => r
  | fuel + 1, r => if n / tenTo r < bound then r else excessDigits n fuel (r + 1)

/-- Fits `n / 10 ^ scale` into a decimal by removing as few digits as possible.  Rounding up
to the bound itself removes one digit more.  What rounds to zero keeps its sign. -/
def fit? (negative : Bool) (n scale : Nat) : Option Decimal :=
  let r := excessDigits n (Nat.log2 n) (scale - maxScale)
  if scale < r then none else
    let m := roundHalfEven n (tenTo r)
    if m < bound then ofSignedParts? negative m (scale - r)
    else if scale < r + 1 then none
    else ofSignedParts? negative (roundHalfEven m 10) (scale - (r + 1))

/-! ### Arithmetic -/

/-- The sum.  A zero term leaves the other term as it is. -/
def add? (x y : Decimal) : Option Decimal :=
  if x.isZero then some y
  else if y.isZero then some x
  else
    let scale := max x.scale.val y.scale.val
    let sum := x.signed * tenTo (scale - x.scale.val) + y.signed * tenTo (scale - y.scale.val)
    fit? (sum < 0) sum.natAbs scale

/-- The difference.  A zero subtrahend leaves the minuend as it is. -/
def sub? (x y : Decimal) : Option Decimal :=
  if y.isZero then some (if x.isZero then y else x) else x.add? y.neg

/-- The product.  One that rounds to zero is negative if the signs differ, except that two mantissas
of at most 32 bits give a zero without sign, or the plain zero when they have too many fraction
digits. -/
def mul? (x y : Decimal) : Option Decimal :=
  if x.isZero || y.isZero then some zero
  else
    let scale := x.scale.val + y.scale.val
    let product := fit? (x.negative ^^ y.negative) (x.mantissa.val * y.mantissa.val) scale
    if x.mantissa.val < twoTo 32 ∧ y.mantissa.val < twoTo 32 then
      if 47 < scale then some zero
      else product.map fun p => { p with negative := p.negative && !p.isZero }
    else product

/-- The greatest number of digits, at most `limit`, by which `q` can be extended in range. -/
def room (q : Nat) : (limit : Nat) → Nat
  | 0 => 0
  | limit + 1 => if q * tenTo (limit + 1) < bound then limit + 1 else room q limit

/-- Removes trailing zeros in groups of eight, four, two and one digits.  A group is tried
only where the low bits of the mantissa allow it. -/
def dropZeros (m scale : Nat) : Nat × Nat :=
  let strip (divides : Bool) (digits : Nat) (x : Nat × Nat) : Nat × Nat :=
    if divides && digits ≤ x.2 && x.1 % tenTo digits == 0 then (x.1 / tenTo digits, x.2 - digits)
    else x
  let eights := (List.range 3).foldl (fun x _ => strip (x.1 % twoTo 32 == 0) 8 x) (m, scale)
  let fours := strip (eights.1 % 16 == 0) 4 eights
  let twos := strip (fours.1 % 4 == 0) 2 fours
  strip (twos.1 % 2 == 0) 1 twos

/-- Rounds the digit after the mantissa `q` up, giving back one digit when that overflows. -/
def roundUp? (q : Nat) (scale : Int) : Option (Nat × Int) :=
  if q + 1 < bound then some (q + 1, scale)
  else if scale < 1 then none
  else some (roundHalfEven (q + 1) 10, scale - 1)

theorem room_le (q limit : Nat) :
  room q limit ≤ limit
  := by
  induction limit with
  | zero => simp [room]
  | succ n ih => unfold room; split <;> omega

/-- Extends the quotient `q` with remainder `r` of a division by `d` until it is exact or out
of room.  The flag tells whether a remainder was seen. -/
def divideFrom (d q r : Nat) (scale : Int) (inexact : Bool) : Option (Nat × Int × Bool) :=
  if r = 0 then
    if 0 ≤ scale then some (q, scale, inexact)
    else if q * tenTo (min 9 (-scale).toNat) < bound then
      divideFrom d (q * tenTo (min 9 (-scale).toNat)) 0 (scale + min 9 (-scale).toNat) inexact
    else none
  else
    match _hp : room q (min 9 (maxScale - scale).toNat) with
    | 0 =>
      if scale < 0 then none
      else if d < 2 * r ∨ (d = 2 * r ∧ q % 2 = 1) then
        (roundUp? q scale).map fun (q, scale) => (q, scale, true)
      else some (q, scale, true)
    | k + 1 =>
      if scale + (k + 1) < 0 ∧ k + 1 < 9 then none else
        let next := q * tenTo (k + 1) + r * tenTo (k + 1) / d
        let rest := r * tenTo (k + 1) % d
        if next < bound then divideFrom d next rest (scale + (k + 1)) true
        else if scale + k < 0 then none
        else
          let last := next % 10
          let up := 5 < last ∨ (last = 5 ∧ (rest ≠ 0 ∨ next / 10 % 2 = 1))
          some (if up then next / 10 + 1 else next / 10, scale + k, true)
termination_by (maxScale + 1 - scale).toNat
decreasing_by
  · simp only [maxScale]
    omega
  · have := room_le q (min 9 (maxScale - scale).toNat)
    simp only [maxScale] at *
    omega

/-- The quotient, `none` for a zero divisor or when it is out of range. -/
def div? (x y : Decimal) : Option Decimal :=
  if y.isZero then none
  else if x.isZero then some zero
  else
    let a := x.mantissa.val
    let b := y.mantissa.val
    match divideFrom b (a / b) (a % b) (x.scale.val - y.scale.val : Int) false with
    | none => none
    | some (q, scale, inexact) =>
      let (q, scale) := if inexact then dropZeros q scale.toNat else (q, scale.toNat)
      ofParts? (x.negative ^^ y.negative) q scale

/-- Brings the next digit of 32 bits down to the partial remainder `r` of a division by `d`.  The
digit of the quotient is estimated and has 32 bits: where the leading digits of `r` and `d` are
equal it would need one more, and the leading digit of `r` is lost. -/
def bringDown (d r digit : Nat) : Nat :=
  let kept := if r / twoTo 64 = d / twoTo 64 then r % twoTo 64 else r
  (kept * twoTo 32 + digit) % d

/-- The remainder of a long division of seven digits of 32 bits by three.  Both numbers are first
shifted so that the divisor uses all of its 96 bits. -/
def longRemainder (a b : Nat) : Nat :=
  let shift := 95 - Nat.log2 b
  let digit (i : Nat) : Nat := a * twoTo shift / twoTo (32 * i) % twoTo 32
  ([6, 5, 4, 3, 2, 1, 0].foldl (fun r i => bringDown (b * twoTo shift) r (digit i)) 0)
    / twoTo shift

/-- The remainder of the quotient truncated toward zero, with the sign of the dividend.  A divisor
of more than 64 bits takes a long division. -/
def rem? (x y : Decimal) : Option Decimal :=
  if y.isZero then none
  else if x.isZero then some zero
  else
    let scale := max x.scale.val y.scale.val
    let a := x.mantissa.val * tenTo (scale - x.scale.val)
    let b := y.mantissa.val * tenTo (scale - y.scale.val)
    if a = b then some zero
    else if a < b then some x
    else ofParts? x.negative (if b < twoTo 64 then a % b else longRemainder a b) scale

/-! ### Text -/

def render (x : Decimal) : String :=
  let digits := Nat.toDigits 10 x.mantissa.val
  let scale := x.scale.val
  let digits := List.replicate (scale + 1 - digits.length) '0' ++ digits
  let whole := digits.take (digits.length - scale)
  let fraction := digits.drop (digits.length - scale)
  let text := if scale = 0 then whole else whole ++ '.' :: fraction
  String.ofList (if x.negative then '-' :: text else text)

/-- The state of reading digits: the mantissa so far and, after the point, the scale. -/
structure Reading where
  mantissa : Nat
  scale : Option Nat

/-- Ends a reading at the first digit there is no room for, which rounds the last one.  An
underscore in its place rounds nothing.  Only digits and underscores may follow. -/
def finishRounded? (negative : Bool) (mantissa scale : Nat) (next : Char) (rest : List Char) :
    Option Decimal :=
  if (next :: rest).all (fun c => c.isDigit || c == '_') then
    let m := if next.isDigit && '5' ≤ next then mantissa + 1 else mantissa
    if m < bound then ofParts? negative m scale
    else if scale = 0 then none
    else ofParts? negative ((m + 4) / 10) (scale - 1)
  else none

/-- Whether 64 bits had room for the last digit of a mantissa, with some to spare. -/
def isNarrow (mantissa : Nat) : Bool := mantissa / 10 < (twoTo 64 - 1) / 10 - 255

/-- Whether a reading ends at the next character, as there is room for no more digits.  An
underscore after a mantissa that is not narrow is skipped all the same. -/
def Reading.isFull (st : Reading) (next : Char) : Bool :=
  st.scale == some maxScale && (next != '_' || isNarrow st.mantissa)

/-- Reads digits with at most one point.  The flag tells whether a digit was seen. -/
def readDigits? (negative : Bool) : Reading → Bool → List Char → Option Decimal
  | st, seen, [] => if seen then ofParts? negative st.mantissa (st.scale.getD 0) else none
  | st, seen, c :: rest =>
    if st.isFull c then finishRounded? negative st.mantissa maxScale c rest
    else if c = '_' ∧ seen then readDigits? negative st seen rest
    else if c.isDigit then
      let m := 10 * st.mantissa + (c.toNat - '0'.toNat)
      if m < bound then readDigits? negative ⟨m, st.scale.map (· + 1)⟩ true rest
      else match st.scale with
        | none => none
        | some scale => finishRounded? negative st.mantissa scale c rest
    else if c = '.' ∧ st.scale.isNone then readDigits? negative ⟨st.mantissa, some 0⟩ seen rest
    else none

/-- Reads a decimal.  Fraction digits there is no room for are rounded away. -/
def parse? (text : String) : Option Decimal :=
  let (negative, rest) := splitSign text.toList
  readDigits? negative ⟨0, none⟩ false rest

def normalized (x : Decimal) : Decimal :=
  let rec go : (scale m : Nat) → Nat × Nat
    | 0, m => (m, 0)
    | scale + 1, m => if m % 10 = 0 then go scale (m / 10) else (m, scale + 1)
  let (m, scale) := go x.scale.val x.mantissa.val
  (ofParts? x.negative m scale).getD x

/-- The decimal with `digits` fraction digits less, the last one left rounded half up. -/
def shortened? (x : Decimal) : (digits : Nat) → Option Decimal
  | 0 => some x
  | digits + 1 =>
    ofSignedParts? x.negative ((x.mantissa.val / tenTo digits + 5) / 10)
      (x.scale.val - (digits + 1))

/-- Multiplies by powers of ten that 64 bits hold. -/
def timesTenTo? (x : Decimal) (e : Nat) : Option Decimal := do
  let whole (n : Nat) : Option Decimal := ofParts? false (tenTo n) 0
  let first ← x.mul? (← whole (min e 19))
  if e ≤ 19 then return first
  first.mul? (← whole (e - 19))

/-- Reads a decimal with an exponent of at most `maxScale`.  Fraction digits that a negative
exponent pushes out of range are rounded away. -/
def parseScientific? (text : String) : Option Decimal := do
  let isMark (c : Char) : Bool := c == 'e' || c == 'E'
  let cs := text.toList
  let base ← parse? (String.ofList (cs.takeWhile (!isMark ·)))
  let scale := base.scale.val
  match cs.dropWhile (!isMark ·) with
  | [] => none
  | _ :: '-' :: digits =>
    let e ← unsigned? digits
    if maxScale < e then none else
      let short ← base.shortened? (scale + e - maxScale)
      ofSignedParts? short.negative short.mantissa.val (short.scale.val + e)
  | _ :: digits =>
    let e ← unsigned? digits
    if e ≤ scale then some { base with scale := ⟨scale - e, by omega⟩ }
    else if maxScale < e then none
    else (← base.timesTenTo? e).normalized

end Decimal

end ActorLang
