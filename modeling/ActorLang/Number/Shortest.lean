import ActorLang.Number.Binary

/-!
# Decimal text of floating-point numbers

`Binary.shortest` finds the fewest decimal digits that read back as a given number, and of those the
nearest to it.  `FloatNotation` says how digits are laid out, positionally or with an exponent.
`Binary.parse?` reads a number.
-/

namespace ActorLang

/-- Which of two equally near decimals is taken. -/
inductive TieRule where
  | up
  | even
  deriving DecidableEq

/-- The decimal `digits * 10 ^ exponent`. -/
structure Scientific where
  digits : Nat
  exponent : Int
  deriving DecidableEq

def Scientific.fraction (x : Scientific) : Nat × Nat :=
  if 0 ≤ x.exponent then (x.digits * tenTo x.exponent.toNat, 1)
  else (x.digits, tenTo (-x.exponent).toNat)

namespace BinaryFormat

def fractionOf (f : BinaryFormat) (c : Nat) : Nat × Nat :=
  let e := f.lastPlace c
  if 0 ≤ e then (f.significand c * twoTo e.toNat, 1)
  else (f.significand c, twoTo (-e).toNat)

def leadingExponent (num den : Nat) : Int :=
  let k := Nat.log2 den + 1
  (Nat.toDigits 10 (num * tenTo k / den)).length - 1 - k

def readsBack (f : BinaryFormat) (c : Nat) (x : Scientific) : Bool :=
  f.nearest x.fraction.1 x.fraction.2 = c

/-- The better of the two multiples of `10 ^ k` around `num / den` that read back as `c`. -/
def onGrid? (f : BinaryFormat) (tie : TieRule) (c num den : Nat) (k : Int) :
    Option Scientific :=
  let (n, d) := if 0 ≤ k then (num, den * tenTo k.toNat) else (num * tenTo (-k).toNat, den)
  let q := n / d
  let below : Scientific := ⟨q, k⟩
  let above : Scientific := ⟨q + 1, k⟩
  if f.readsBack c below then
    if f.readsBack c above then
      match compare (2 * (n % d)) d with
      | .lt => some below
      | .gt => some above
      | .eq => some (if tie = .even ∧ q % 2 = 0 then below else above)
    else some below
  else if f.readsBack c above then some above
  else none

/-- Searches the grids with `n` digits, `n + 1` digits and so on. -/
def shortestFrom (f : BinaryFormat) (tie : TieRule) (c num den : Nat) (lead : Int) :
    (fuel n : Nat) → Scientific
  | 0, n => ⟨num / den, lead - n⟩
  | fuel + 1, n =>
    match f.onGrid? tie c num den (lead + 1 - n) with
    | some x => x
    | none => f.shortestFrom tie c num den lead fuel (n + 1)

/-- The fewest digits that read back as the positive magnitude with code `c`; of these the
nearest to it. -/
def shortest (f : BinaryFormat) (tie : TieRule) (c : Nat) : Scientific :=
  let (num, den) := f.fractionOf c
  f.shortestFrom tie c num den (leadingExponent num den) (f.fraction / 3 + 3) 1

end BinaryFormat

/-- How a decimal is laid out. -/
structure FloatNotation where
  /-- The least exponent of the leading digit written positionally. -/
  least : Int
  /-- The first exponent of the leading digit no longer written positionally. -/
  most : Int
  /-- Whether a positive exponent is written with its sign. -/
  plus : Bool
  /-- Which of two equally near decimals is written. -/
  tie : TieRule

namespace FloatNotation

/-- Digits written positionally, with at least one digit on either side of the point. -/
def positional (digits : List Char) (exponent : Int) : List Char :=
  if 0 ≤ exponent then
    digits ++ List.replicate exponent.toNat '0' ++ ['.', '0']
  else
    let places := (-exponent).toNat
    if places < digits.length then
      let whole := digits.length - places
      digits.take whole ++ '.' :: digits.drop whole
    else
      '0' :: '.' :: List.replicate (places - digits.length) '0' ++ digits

/-- Digits written as one digit, a fraction if there are more, and an exponent. -/
def exponential (layout : FloatNotation) (digits : List Char) (lead : Int) : List Char :=
  let fraction := match digits.drop 1 with
    | [] => []
    | rest => '.' :: rest
  let sign := if 0 ≤ lead ∧ layout.plus then ['+'] else []
  digits.take 1 ++ fraction ++ 'e' :: sign ++ (toString lead).toList

/-- The decimal without trailing zeros. -/
def trimmed : (fuel : Nat) → Scientific → Scientific
  | 0, x => x
  | fuel + 1, x =>
    if x.digits % 10 = 0 then trimmed fuel ⟨x.digits / 10, x.exponent + 1⟩ else x

/-- The text of a decimal that is not zero. -/
def renderDecimal (layout : FloatNotation) (x : Scientific) : List Char :=
  let x := trimmed 2 x
  let digits := Nat.toDigits 10 x.digits
  let lead := x.exponent + digits.length - 1
  if layout.least ≤ lead ∧ lead < layout.most then positional digits x.exponent
  else layout.exponential digits lead

/-- The text of a magnitude: `none` for infinity. -/
def renderMagnitude (layout : FloatNotation) (f : BinaryFormat) (c : Nat) :
    Option (List Char) :=
  if c = 0 then some ['0', '.', '0']
  else if c < f.infinity then some (layout.renderDecimal (f.shortest layout.tie c))
  else none

def renderFinite? {f : BinaryFormat} (layout : FloatNotation) : Binary f → Option String
  | .nan => none
  | .number negative c =>
    (layout.renderMagnitude f c).map fun text =>
      String.ofList (if negative then '-' :: text else text)

def render {f : BinaryFormat} (layout : FloatNotation) (x : Binary f) : String :=
  match layout.renderFinite? x, x with
  | some text, _ => text
  | none, .number true _ => "-inf"
  | none, .number false _ => "inf"
  | none, .nan => "NaN"

end FloatNotation

namespace Binary

variable {f : BinaryFormat}

/-- Reads an exponent: nothing, or a mark, an optional sign and digits. -/
def parseExponent? : List Char → Option Int
  | [] => some 0
  | mark :: rest =>
    if mark = 'e' ∨ mark = 'E' then
      let (negative, digits) := splitSign rest
      (natural? digits).map fun n => if negative then -(n : Int) else n
    else none

/-- Reads an unsigned number: digits, a fraction and an exponent, of which the fraction and
the exponent may be missing; one of the digits before and after the point is required. -/
def parseMagnitude? (negative : Bool) (text : List Char) : Option (Binary f) :=
  let whole := text.takeWhile Char.isDigit
  let rest := text.dropWhile Char.isDigit
  let (fraction, rest) := match rest with
    | '.' :: rest => (rest.takeWhile Char.isDigit, rest.dropWhile Char.isDigit)
    | rest => ([], rest)
  if whole.isEmpty ∧ fraction.isEmpty then none else
    (parseExponent? rest).map fun e =>
      ofDecimal negative (digitsValue (whole ++ fraction)) (e - fraction.length)

/-- Reads a number, an infinity or `nan`, with an optional sign. -/
def parse? (text : String) : Option (Binary f) :=
  let (negative, rest) := splitSign text.toList
  match String.ofList (rest.map Char.toLower) with
  | "inf" | "infinity" => some (inf negative)
  | "nan" => some nan
  | _ => parseMagnitude? negative rest

end Binary

end ActorLang
