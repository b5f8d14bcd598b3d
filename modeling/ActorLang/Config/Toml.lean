import ActorLang.Number.Integer

/-!
# TOML

The part of the TOML format that settings need: tables, dotted keys, strings, integers,
booleans, arrays and inline tables.  Dates and arrays of tables are refused.
-/

namespace ActorLang.Toml

inductive Node where
  | string (text : String)
  | integer (value : Int)
  | boolean (value : Bool)
  | float
  | array (items : List Node)
  /-- A table in braces, which is complete as it stands. -/
  | inlineTable (entries : List (String × Node))
  /-- A table that keys and headers build: whether only longer headers or dotted keys have
  mentioned it, and whether dotted keys have made it. -/
  | table (implicit dotted : Bool) (entries : List (String × Node))
  deriving Inhabited

abbrev Entries := List (String × Node)

/-! ### Tables -/

/-- The entries with another node at a key. -/
def replaceEntry (key : String) (node : Node) (entries : Entries) : Entries :=
  entries.map fun (k, n) => if k = key then (k, node) else (k, n)

/-- Adds an entry below the tables of `path`.  A table in the path that is there already must not be
one that a header has opened, and the last one must be one that dotted keys have made. -/
def insertDotted (path : List String) (key : String) (node : Node) (entries : Entries) :
    Option Entries :=
  match path with
  | [] => if (entries.lookup key).isSome then none else some (entries ++ [(key, node)])
  | k :: rest => match entries.lookup k with
    | none => do
      let inner ← insertDotted rest key node []
      return entries ++ [(k, .table true true inner)]
    | some (.table true made inner) =>
      if rest.isEmpty && !made then none
      else do
        let inner ← insertDotted rest key node inner
        return replaceEntry k (.table true made inner) entries
    | some _ => none

/-- Opens the table of a header, which no header and no dotted key has made before. -/
def openTable : (path : List String) → Entries → Option Entries
  | [], entries => some entries
  | [key], entries => match entries.lookup key with
    | none => some (entries ++ [(key, .table false false [])])
    | some (.table true false inner) => some (replaceEntry key (.table false false inner) entries)
    | some _ => none
  | k :: rest, entries => match entries.lookup k with
    | none => do
      let inner ← openTable rest []
      return entries ++ [(k, .table true false inner)]
    | some (.table implicit dotted inner) => do
      let inner ← openTable rest inner
      return replaceEntry k (.table implicit dotted inner) entries
    | some _ => none

/-- Changes the entries of the table at a path. -/
def atTable (f : Entries → Option Entries) : (path : List String) → Entries → Option Entries
  | [], entries => f entries
  | k :: rest, entries => match entries.lookup k with
    | some (.table implicit dotted inner) => do
      let inner ← atTable f rest inner
      return replaceEntry k (.table implicit dotted inner) entries
    | _ => none

/-! ### Reading -/

abbrev Reader (α : Type) := StateT (List Char) Option α

def peek : Reader (Option Char) := return (← get).head?

def next : Reader Char := do
  match ← get with
  | [] => none
  | c :: rest =>
    set rest
    return c

def eat (text : String) : Reader Bool := do
  let cs ← get
  if text.toList.isPrefixOf cs then
    set (cs.drop text.length)
    return true
  else return false

def expect (text : String) : Reader Unit := do
  if !(← eat text) then failure

def takeWhile (p : Char → Bool) : Reader (List Char) := do
  let cs ← get
  set (cs.dropWhile p)
  return cs.takeWhile p

def remaining : Reader Nat := return (← get).length

def isBlank (c : Char) : Bool := c == ' ' || c == '\t'

def blanks : Reader Unit := do
  let _ ← takeWhile isBlank

def newline : Reader Bool := do
  if ← eat "\n" then return true
  eat "\r\n"

/-- Characters that may stand in comments and strings. -/
def isText (c : Char) : Bool := c == '\t' || (32 ≤ c.toNat && c.toNat ≠ 127)

def comment : Reader Unit := do
  if ← eat "#" then
    let _ ← takeWhile isText

def lineEnd : Reader Unit := do
  blanks
  comment
  if !(← newline) then
    if (← peek).isSome then failure

def space : (fuel : Nat) → Reader Unit
  | 0 => return
  | fuel + 1 => do
    blanks
    comment
    if ← newline then space fuel

/-! ### Strings -/

def unicode (n : Nat) : Reader Char := do
  let cs ← get
  let some digits := (cs.take n).mapM hexValue? | failure
  if digits.length ≠ n then failure
  set (cs.drop n)
  let code := digits.foldl (fun a d => 16 * a + d) 0
  if code.isValidChar then return Char.ofNat code else failure

def escape : Reader Char := do
  match ← next with
  | 'b' => return '\x08'
  | 't' => return '\t'
  | 'n' => return '\n'
  | 'f' => return '\x0c'
  | 'r' => return '\r'
  | '"' => return '"'
  | '\\' => return '\\'
  | 'u' => unicode 4
  | 'U' => unicode 8
  | _ => failure

def basicString : (fuel : Nat) → Reader (List Char)
  | 0 => failure
  | fuel + 1 => do
    match ← next with
    | '"' => return []
    | '\\' => do
      let c ← escape
      return c :: (← basicString fuel)
    | c => if isText c then return c :: (← basicString fuel) else failure

def literalString : Reader (List Char) := do
  let cs ← takeWhile fun c => c != '\'' && isText c
  expect "'"
  return cs

/-- A run of quotes in a text of several lines: quotes of the text, and whether it ends. -/
def quoteRun (quote : Char) : Reader (List Char × Bool) := do
  let run ← takeWhile (· == quote)
  if run.length < 3 then return (run, false)
  else if run.length ≤ 5 then return (run.drop 3, true)
  else failure

/-- The rest of a text of several lines.  In double quotes a backslash starts an escape, or hides
a line end and the blanks after it. -/
def longString (quote : Char) : (fuel : Nat) → Reader (List Char)
  | 0 => failure
  | fuel + 1 => do
    if ← newline then return '\n' :: (← longString quote fuel)
    match ← peek with
    | none => failure
    | some c =>
      if c = quote then
        let (quotes, isEnd) ← quoteRun quote
        if isEnd then return quotes else return quotes ++ (← longString quote fuel)
      else if c = '\\' ∧ quote = '"' then
        let _ ← next
        let before ← get
        blanks
        if ← newline then
          let _ ← hidden fuel
          longString quote fuel
        else
          set before
          let c ← escape
          return c :: (← longString quote fuel)
      else if isText c then
        let _ ← next
        return c :: (← longString quote fuel)
      else failure
where
  hidden : (fuel : Nat) → Reader Unit
    | 0 => return
    | fuel + 1 => do
      blanks
      if ← newline then hidden fuel

/-- A text of several lines; a line end right after the quotes is not part of it. -/
def longText (quote : Char) : Reader String := do
  let _ ← newline
  return String.ofList (← longString quote ((← remaining) + 1))

/-! ### Keys and numbers -/

def isBare (c : Char) : Bool := c.isAlphanum || c == '_' || c == '-'

def simpleKey : Reader String := do
  if ← eat "\"" then return String.ofList (← basicString ((← remaining) + 1))
  if ← eat "'" then return String.ofList (← literalString)
  let cs ← takeWhile isBare
  if cs.isEmpty then failure
  return String.ofList cs

def keyParts : (fuel : Nat) → Reader (List String)
  | 0 => failure
  | fuel + 1 => do
    let k ← simpleKey
    blanks
    if ← eat "." then
      blanks
      return k :: (← keyParts fuel)
    else return [k]

def key : Reader (List String) := do keyParts ((← remaining) + 1)

/-- Digits, with single underscores between them. -/
def digits? (isDigit : Char → Bool) : List Char → Option (List Char)
  | [] => none
  | [c] => if isDigit c then some [c] else none
  | c :: '_' :: rest => if isDigit c then (digits? isDigit rest).map (c :: ·) else none
  | c :: rest => if isDigit c then (digits? isDigit rest).map (c :: ·) else none

def numberOf (base : Nat) (cs : List Char) : Nat :=
  cs.foldl (fun a c => base * a + (hexValue? c).getD 0) 0

def decimalDigits? (cs : List Char) : Option (List Char) := do
  let ds ← digits? Char.isDigit cs
  if ds.length > 1 ∧ ds.head? = some '0' then none else some ds

def integer? (cs : List Char) : Option Int :=
  let based (base : Nat) (isDigit : Char → Bool) (rest : List Char) : Option Int :=
    (digits? isDigit rest).map fun ds => numberOf base ds
  let number : Option Int := match cs with
    | '0' :: 'x' :: rest => based 16 (fun c => (hexValue? c).isSome) rest
    | '0' :: 'o' :: rest => based 8 (fun c => '0' ≤ c && c ≤ '7') rest
    | '0' :: 'b' :: rest => based 2 (fun c => c == '0' || c == '1') rest
    | cs =>
      let (negative, rest) := splitSign cs
      (decimalDigits? rest).map fun ds =>
        if negative then -(numberOf 10 ds : Int) else numberOf 10 ds
  number.filter fitsInt64

def isFloat (cs : List Char) : Bool :=
  let (_, rest) := splitSign cs
  let isExponent (c : Char) : Bool := c == 'e' || c == 'E'
  let mantissa := rest.takeWhile (!isExponent ·)
  let exponent := rest.drop mantissa.length
  let whole := mantissa.takeWhile (· != '.')
  let fraction := mantissa.drop whole.length
  let exponentFits := match exponent with
    | [] => true
    | _ :: ds => (digits? Char.isDigit (splitSign ds).2).isSome
  let fractionFits := match fraction with
    | [] => !exponent.isEmpty
    | _ :: ds => (digits? Char.isDigit ds).isSome
  rest = "inf".toList || rest = "nan".toList ||
    ((decimalDigits? whole).isSome && fractionFits && exponentFits)

def word : Reader Node := do
  let cs ← takeWhile fun c => isBare c || c == '+' || c == '.'
  if cs = "true".toList then return .boolean true
  if cs = "false".toList then return .boolean false
  match integer? cs with
  | some n => return .integer n
  | none => if isFloat cs then return .float else failure

/-! ### Values -/

def arrayItems (value : Reader Node) : (fuel : Nat) → Reader (List Node)
  | 0 => failure
  | fuel + 1 => do
    space ((← remaining) + 1)
    if ← eat "]" then return []
    let v ← value
    space ((← remaining) + 1)
    if ← eat "," then return v :: (← arrayItems value fuel)
    expect "]"
    return [v]

def keyValue (value : Reader Node) : Reader (List String × Node) := do
  let k ← key
  blanks
  expect "="
  blanks
  return (k, ← value)

def inlineEntries (value : Reader Node) : (fuel : Nat) → Entries → Reader Entries
  | 0, _ => failure
  | fuel + 1, entries => do
    let (k, v) ← keyValue value
    let some last := k.getLast? | failure
    let some entries := insertDotted k.dropLast last v entries | failure
    blanks
    if ← eat "," then
      blanks
      inlineEntries value fuel entries
    else
      expect "\x7d"
      return entries

def valueAt : (depth : Nat) → Reader Node
  | 0 => failure
  | depth + 1 => do
    if ← eat "\"\"\"" then return .string (← longText '"')
    if ← eat "'''" then return .string (← longText '\'')
    if ← eat "\"" then return .string (String.ofList (← basicString ((← remaining) + 1)))
    if ← eat "'" then return .string (String.ofList (← literalString))
    if ← eat "[" then return .array (← arrayItems (valueAt depth) ((← remaining) + 1))
    if ← eat "\x7b" then
      blanks
      if ← eat "\x7d" then return .inlineTable []
      return .inlineTable (← inlineEntries (valueAt depth) ((← remaining) + 1) [])
    word

def value : Reader Node := do valueAt ((← remaining) + 1)

def lines : (fuel : Nat) → (header : List String) → Entries → Reader Entries
  | 0, _, entries => return entries
  | fuel + 1, header, entries => do
    blanks
    match ← peek with
    | none => return entries
    | some '[' =>
      let _ ← next
      if (← peek) = some '[' then failure
      blanks
      let path ← key
      blanks
      expect "]"
      let some entries := openTable path entries | failure
      lineEnd
      lines fuel path entries
    | some c =>
      if c = '#' ∨ c = '\n' ∨ c = '\r' then
        lineEnd
        lines fuel header entries
      else
        let (k, v) ← keyValue value
        let some last := k.getLast? | failure
        let some entries := atTable (insertDotted k.dropLast last v) header entries | failure
        lineEnd
        lines fuel header entries

def parse? (text : String) : Option Entries :=
  let cs := match text.toList with
    | c :: rest => if c.toNat = 0xFEFF then rest else c :: rest
    | [] => []
  ((lines (cs.length + 1) [] []).run cs).map (·.1)

end ActorLang.Toml
