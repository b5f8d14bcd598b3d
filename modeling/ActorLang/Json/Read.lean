import ActorLang.Json.Basic
import ActorLang.Number.Integer

/-!
# Reading JSON

`Json.parse?` reads a value from its text.  Readers take the text from its front and return
what remains of it.
-/

namespace ActorLang.Json

/-- What a reader returns: a result and the rest of the text. -/
abbrev Reader (α : Type) := List Char → Option (α × List Char)

def isBlank (c : Char) : Bool := c == ' ' || c == '\n' || c == '\r' || c == '\t'

def skipBlanks (cs : List Char) : List Char := cs.dropWhile isBlank

/-! ### Strings -/

def hexUnit? (a b c d : Char) : Option Nat := do
  return (((← hexValue? a) * 16 + (← hexValue? b)) * 16 + (← hexValue? c)) * 16 + (← hexValue? d)

def unitChar? (u : Nat) : Option Char :=
  if 0xD800 ≤ u ∧ u < 0xE000 then none else some (Char.ofNat u)

def pairChar? (high low : Nat) : Option Char :=
  if 0xD800 ≤ high ∧ high < 0xDC00 ∧ 0xDC00 ≤ low ∧ low < 0xE000 then
    some (Char.ofNat (0x10000 + (high - 0xD800) * 0x400 + (low - 0xDC00)))
  else none

def simpleEscape? : Char → Option Char
  | '"' => some '"'
  | '\\' => some '\\'
  | '/' => some '/'
  | 'b' => some '\x08'
  | 'f' => some '\x0c'
  | 'n' => some '\n'
  | 'r' => some '\r'
  | 't' => some '\t'
  | _ => none

def stringBody : List Char → List Char → Option (List Char × List Char)
  | acc, '"' :: rest => some (acc.reverse, rest)
  | acc, '\\' :: 'u' :: a :: b :: c :: d :: rest => do
    let u ← hexUnit? a b c d
    match unitChar? u with
    | some ch => stringBody (ch :: acc) rest
    | none =>
      let '\\' :: 'u' :: a :: b :: c :: d :: rest := rest | none
      stringBody ((← pairChar? u (← hexUnit? a b c d)) :: acc) rest
  | acc, '\\' :: e :: rest => do stringBody ((← simpleEscape? e) :: acc) rest
  | acc, c :: rest => if c.toNat < 32 then none else stringBody (c :: acc) rest
  | _, [] => none

/-! ### Numbers -/

def digits1? (cs : List Char) : Option (List Char × List Char) :=
  match cs.takeWhile Char.isDigit with
  | [] => none
  | ds => some (ds, cs.dropWhile Char.isDigit)

def fraction? : Reader (List Char)
  | '.' :: rest => (digits1? rest).map fun (ds, rest) => ('.' :: ds, rest)
  | rest => some ([], rest)

def exponent? : Reader (List Char)
  | mark :: rest =>
    if mark = 'e' ∨ mark = 'E' then
      let (sign, rest) := match rest with
        | '+' :: rest => (['+'], rest)
        | '-' :: rest => (['-'], rest)
        | rest => ([], rest)
      (digits1? rest).map fun (ds, rest) => (mark :: sign ++ ds, rest)
    else some ([], mark :: rest)
  | [] => some ([], [])

def magnitude? (cs : List Char) : Option (List Char × List Char) := do
  let (whole, rest) ← digits1? cs
  if whole.head? = some '0' ∧ 1 < whole.length then none
  let (frac, rest) ← fraction? rest
  let (exp, rest) ← exponent? rest
  return (whole ++ frac ++ exp, rest)

def number? : Reader Json
  | '-' :: rest => (magnitude? rest).map fun (ds, rest) =>
    (number (String.ofList ('-' :: ds)), rest)
  | cs => (magnitude? cs).map fun (ds, rest) => (number (String.ofList ds), rest)

/-! ### Containers -/

/-- The items of a container from its first one to its end. -/
def items? {α : Type} (close : Char) (item : Reader α) : (fuel : Nat) → Reader (List α)
  | 0, _ => none
  | fuel + 1, cs => do
    let (a, rest) ← item cs
    match skipBlanks rest with
    | ',' :: rest => (items? close item fuel rest).map fun (items, rest) => (a :: items, rest)
    | c :: rest => if c = close then some ([a], rest) else none
    | [] => none

def member? (item : Reader Json) : Reader (String × Json) := fun cs => do
  let '"' :: rest := skipBlanks cs | none
  let (name, rest) ← stringBody [] rest
  let ':' :: rest := skipBlanks rest | none
  (item rest).map fun (j, rest) => ((String.ofList name, j), rest)

def value? : (depth : Nat) → Reader Json
  | 0, _ => none
  | depth + 1, cs =>
    match skipBlanks cs with
    | 'n' :: 'u' :: 'l' :: 'l' :: rest => some (null, rest)
    | 't' :: 'r' :: 'u' :: 'e' :: rest => some (bool true, rest)
    | 'f' :: 'a' :: 'l' :: 's' :: 'e' :: rest => some (bool false, rest)
    | '"' :: rest => (stringBody [] rest).map fun (s, rest) => (string (String.ofList s), rest)
    | '[' :: rest =>
      match skipBlanks rest with
      | ']' :: rest => some (array [], rest)
      | rest => (items? ']' (value? depth) rest.length rest).map fun (js, rest) => (array js, rest)
    | '\x7b' :: rest =>
      match skipBlanks rest with
      | '\x7d' :: rest => some (object [], rest)
      | rest => (items? '\x7d' (member? (value? depth)) rest.length rest).map fun (ms, rest) => (object ms, rest)
    | cs => number? cs

def parse? (text : String) : Option Json :=
  let cs := text.toList
  ((value? (cs.length + 1) cs).filter fun (_, rest) => (skipBlanks rest).isEmpty).map (·.1)

end ActorLang.Json
