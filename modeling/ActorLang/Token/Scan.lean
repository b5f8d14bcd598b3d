import ActorLang.Token.Basic
import ActorLang.Text.Space

/-!
# Reading tokens

`scan` decides what stands at the front of a text and how many characters it takes: trivia, a token,
or nothing that can be read.  Of several readings the longest is taken.
-/

namespace ActorLang

/-- What stands at the front of a text. -/
inductive Scanned where
  /-- Blanks or a comment. -/
  | trivia
  | token (t : Token)
  /-- Nothing that can be read. -/
  | bad

/-- A token, or a bad reading when the value it spells is out of range. -/
def Scanned.ofOption : Option Token → Scanned
  | some t => token t
  | none => bad

/-! ### Trivia -/

/-- The blanks between tokens. -/
def isLayout (c : Char) : Bool :=
  c == ' ' || c == '\t' || c == '\r' || c == '\n' || c == '\x0c'

/-- The number of characters of a comment body up to and with its closing mark. -/
def commentLength? : List Char → Option Nat
  | '*' :: '/' :: _ => some 2
  | _ :: rest => (commentLength? rest).map (· + 1)
  | [] => none

/-! ### Names -/

def isNameStart (c : Char) : Bool := c.isAlpha || c == '_'

def isNameRest (c : Char) : Bool := c.isAlphanum || c == '_'

def nameToken (name : String) : Token :=
  if name = "_" then .mark .wildcard
  else match Keyword.ofSpelling? name with
    | some k => .word k
    | none => .ident name

/-! ### Numbers -/

def fractionPart : List Char → List Char
  | '.' :: rest => match rest.takeWhile Char.isDigit with
    | [] => []
    | ds => '.' :: ds
  | _ => []

def exponentPart : List Char → List Char
  | mark :: rest =>
    if mark = 'e' ∨ mark = 'E' then
      let (sign, rest) := match rest with
        | '+' :: rest => (['+'], rest)
        | '-' :: rest => (['-'], rest)
        | rest => ([], rest)
      match rest.takeWhile Char.isDigit with
      | [] => []
      | ds => mark :: sign ++ ds
    else []
  | [] => []

def int64OfDigits? (digits : List Char) : Option Int64 :=
  let n := digitsValue digits
  if fitsInt64 n then some (Int64.ofNat n) else none

/-- An integer without a suffix takes 32 bits if it fits. -/
def intToken? (digits : List Char) : Option Token :=
  let n := digitsValue digits
  if fitsInt32 n then some (.int32 (Int32.ofNat n)) else (int64OfDigits? digits).map .int64

def floatToken? (text : List Char) : Option Token :=
  (Binary.parseMagnitude? false text).map .float

def float32Token? (text : List Char) : Option Token :=
  (Binary.parseMagnitude? false text).map .float32

def decimalToken? (text : List Char) : Option Token :=
  (Decimal.parse? (String.ofList text)).map .decimal

def startsIn (letters : List Char) : List Char → Bool
  | c :: _ => letters.contains c
  | [] => false

/-- The number that starts with digits and a fraction, before the rest of a text, and the number
of its characters. -/
def numberBefore (plain frac rest : List Char) : Scanned × Nat :=
  let exp := exponentPart rest
  let full := plain ++ exp
  let last := rest.drop exp.length
  if !exp.isEmpty && startsIn ['f', 'F'] last then
    (.ofOption (float32Token? full), full.length + 1)
  else if !exp.isEmpty && !frac.isEmpty then
    (.ofOption (floatToken? full), full.length + if startsIn ['d', 'D'] last then 1 else 0)
  else if startsIn ['f', 'F'] rest then (.ofOption (float32Token? plain), plain.length + 1)
  else if startsIn ['m', 'M'] rest then (.ofOption (decimalToken? plain), plain.length + 1)
  else if frac.isEmpty then
    if startsIn ['l', 'L'] rest then
      (.ofOption ((int64OfDigits? plain).map .long), plain.length + 1)
    else (.ofOption (intToken? plain), plain.length)
  else (.ofOption (floatToken? plain), plain.length + if startsIn ['d', 'D'] rest then 1 else 0)

def scanNumber (cs : List Char) : Scanned × Nat :=
  let whole := cs.takeWhile Char.isDigit
  let frac := fractionPart (cs.drop whole.length)
  let plain := whole ++ frac
  numberBefore plain frac (cs.drop plain.length)

/-! ### Characters and strings -/

def scanChar : List Char → Scanned × Nat
  | '&' :: _ => (.token (.mark .andAnd), 1)
  | '\\' :: e :: _ =>
    if ['n', 'r', 't', '0', '\\', '\'', '&'].contains e then (.token (.char (unescapeChar e)), 2)
    else (.bad, 1)
  | ['\\'] => (.bad, 1)
  | c :: _ =>
    if isSpace c then (.bad, if c.toNat < 128 then 0 else 1) else (.token (.char c), 1)
  | [] => (.bad, 0)

/-- Whether a string closes, and the number of characters after its opening quote.  A
backslash before a line break ends the reading. -/
def stringLength (quote : Char) : List Char → Bool × Nat
  | [] => (false, 0)
  | '\\' :: c :: rest =>
    if c = '\n' then (false, 1)
    else
      let (closed, n) := stringLength quote rest
      (closed, n + 2)
  | c :: rest =>
    if c = quote then (true, 1)
    else
      let (closed, n) := stringLength quote rest
      (closed, n + 1)

def scanString (quote : Char) (cs : List Char) : Scanned × Nat :=
  match stringLength quote cs with
  | (true, n) => (.token (.str (String.ofList (unescape (cs.take (n - 1))))), n)
  | (false, n) => (.bad, n)

/-! ### Marks -/

def scanMark (c : Char) (cs : List Char) : Scanned × Nat :=
  let one (m : Mark) : Scanned × Nat := (.token (.mark m), 0)
  let orTwo (m : Mark) (d : Char) (longer : Mark) : Scanned × Nat :=
    if cs.head? = some d then (.token (.mark longer), 1) else one m
  match c with
  | '(' => one .lparen
  | ')' => one .rparen
  | '[' => one .lbracket
  | ']' => one .rbracket
  | '\x7b' => one .lbrace
  | '\x7d' => one .rbrace
  | ',' => one .comma
  | ':' => orTwo .colon '=' .colonEq
  | '.' => if cs.take 2 = ['.', '.'] then (.token (.mark .ellipsis), 2) else one .dot
  | '#' => one .hash
  | '~' => one .tilde
  | '@' => one .atSign
  | '=' => orTwo .assign '=' .eq
  | '!' => orTwo .bang '=' .notEq
  | '<' => orTwo .less '=' .lessEq
  | '>' => orTwo .greater '=' .greaterEq
  | '+' => one .plus
  | '-' => one .minus
  | '*' => one .star
  | '/' => one .slash
  | '%' => one .percent
  | '|' => if cs.head? = some '|' then (.token (.mark .orOr), 1) else (.bad, 0)
  | _ => (.bad, 0)

/-! ### Texts -/

/-- What stands at the front of the text `c :: cs`, and how many characters of `cs` belong
to it. -/
def scan (c : Char) (cs : List Char) : Scanned × Nat :=
  if isLayout c then (.trivia, (cs.takeWhile isLayout).length)
  else if isNameStart c then
    let rest := cs.takeWhile isNameRest
    (.token (nameToken (String.ofList (c :: rest))), rest.length)
  else if c.isDigit then
    let (scanned, n) := scanNumber (c :: cs)
    (scanned, n - 1)
  else if c = '\'' ∨ c = '"' then scanString c cs
  else if c = '&' then scanChar cs
  else match c, cs with
    | '/', '/' :: rest => (.trivia, (rest.takeWhile (· ≠ '\n')).length + 1)
    | '/', '*' :: rest => match commentLength? rest with
      | some n => (.trivia, n + 1)
      | none => (.token (.mark .slash), 0)
    | c, cs => scanMark c cs

/-- A place in a text where nothing can be read, and the text tried there. -/
structure LexError where
  position : Nat
  snippet : String
  deriving DecidableEq

namespace LexError

def suggestion (e : LexError) : String :=
  match e.snippet.toList with
  | '$' :: _ => "Identifiers starting with '$' are reserved for generated code"
  | '&' :: _ => "Character literals are written '&c' or '&\\n'; use '&&' for logical and"
  | '\'' :: _ => "Unterminated string literal"
  | '"' :: _ => "Unterminated string literal"
  | c :: _ =>
    if c.isDigit then "Numeric literal out of range or malformed"
    else "Unexpected character(s): '" ++ e.snippet ++ "'"
  | [] => "Unexpected character(s): '" ++ e.snippet ++ "'"

def code (e : LexError) : String :=
  match e.snippet.toList with
  | '$' :: _ => "TQ-L002"
  | '\'' :: _ => "TQ-L003"
  | '"' :: _ => "TQ-L003"
  | c :: _ => if c.isDigit then "TQ-L004" else "TQ-L001"
  | [] => "TQ-L001"

def message (e : LexError) : String :=
  "Lex error at position " ++ toString e.position ++ ": '" ++ e.snippet ++ "'. " ++ e.suggestion

def span (e : LexError) : Span :=
  ⟨e.position, e.position + max 1 (byteLength e.snippet.toList)⟩

end LexError

theorem length_drop_lt {c : Char} {cs : List Char} {n : Nat} :
  (cs.drop n).length < (c :: cs).length
  := by
  rw [List.length_drop, List.length_cons]
  omega

/-- The tokens of a text that starts at a byte offset. -/
def tokensFrom (position : Nat) : List Char → Except LexError (List Lexeme)
  | [] => .ok []
  | c :: cs =>
    let (scanned, n) := scan c cs
    let text := c :: cs.take n
    let next := position + byteLength text
    match scanned with
    | .bad => .error ⟨position, String.ofList text⟩
    | .trivia => tokensFrom next (cs.drop n)
    | .token t => (tokensFrom next (cs.drop n)).map (⟨t, ⟨position, next⟩⟩ :: ·)
termination_by cs => cs.length
decreasing_by all_goals exact length_drop_lt

def tokenize (source : String) : Except LexError (List Lexeme) :=
  tokensFrom 0 source.toList

end ActorLang
