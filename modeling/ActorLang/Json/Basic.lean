/-!
# JSON values and their text

`Json` keeps the fields of an object in order and a number as it is written.
`Json.compress` writes a value without blanks, `Json.pretty` over several lines.
-/

namespace ActorLang

inductive Json where
  | null
  | bool (value : Bool)
  | number (literal : String)
  | string (value : String)
  | array (elements : List Json)
  | object (fields : List (String × Json))

namespace Json

instance : Inhabited Json := ⟨null⟩

def int (n : Int) : Json := number (toString n)

def optString : Option String → Json
  | none => null
  | some s => string s

def field? : Json → String → Option Json
  | object fields, name => fields.lookup name
  | _, _ => none

/-! ### Text -/

def hexDigit (n : Nat) : Char :=
  if n < 10 then Char.ofNat ('0'.toNat + n) else Char.ofNat ('a'.toNat + n - 10)

/-- A character inside a string: quotes, backslashes and control characters are escaped. -/
def escapeChar (c : Char) : List Char :=
  match c with
  | '"' => ['\\', '"']
  | '\\' => ['\\', '\\']
  | '\n' => ['\\', 'n']
  | '\r' => ['\\', 'r']
  | '\t' => ['\\', 't']
  | '\x08' => ['\\', 'b']
  | '\x0c' => ['\\', 'f']
  | c =>
    if c.toNat < 32 then
      ['\\', 'u', '0', '0', hexDigit (c.toNat / 16), hexDigit (c.toNat % 16)]
    else [c]

def quote (s : String) : List Char :=
  '"' :: s.toList.flatMap escapeChar ++ ['"']

def commaSeparated : List (List Char) → List Char
  | [] => []
  | [text] => text
  | text :: rest => text ++ ',' :: commaSeparated rest

mutual

/-- The text of a value without blanks. -/
def compressChars : Json → List Char
  | null => ['n', 'u', 'l', 'l']
  | bool true => ['t', 'r', 'u', 'e']
  | bool false => ['f', 'a', 'l', 's', 'e']
  | number literal => literal.toList
  | string s => quote s
  | array elements => '[' :: commaSeparated (compressElements elements) ++ [']']
  | object fields => '\x7b' :: commaSeparated (compressFields fields) ++ ['\x7d']

def compressElements : List Json → List (List Char)
  | [] => []
  | j :: rest => compressChars j :: compressElements rest

def compressFields : List (String × Json) → List (List Char)
  | [] => []
  | (name, j) :: rest => (quote name ++ ':' :: compressChars j) :: compressFields rest

end

def compress (j : Json) : String := String.ofList (compressChars j)

def newline (depth : Nat) : List Char := '\n' :: List.replicate (2 * depth) ' '

/-- Items of a container on lines of their own. -/
def block (opening closing : Char) (depth : Nat) (items : List (List Char)) : List Char :=
  match items with
  | [] => [opening, closing]
  | items =>
    opening :: commaSeparated (items.map (newline (depth + 1) ++ ·)) ++ newline depth ++ [closing]

mutual

def prettyChars (depth : Nat) : Json → List Char
  | array elements => block '[' ']' depth (prettyElements (depth + 1) elements)
  | object fields => block '\x7b' '\x7d' depth (prettyFields (depth + 1) fields)
  | null => compressChars null
  | bool b => compressChars (bool b)
  | number literal => compressChars (number literal)
  | string s => compressChars (string s)

def prettyElements (depth : Nat) : List Json → List (List Char)
  | [] => []
  | j :: rest => prettyChars depth j :: prettyElements depth rest

def prettyFields (depth : Nat) : List (String × Json) → List (List Char)
  | [] => []
  | (name, j) :: rest =>
    (quote name ++ ':' :: ' ' :: prettyChars depth j) :: prettyFields depth rest

end

def pretty (j : Json) : String := String.ofList (prettyChars 0 j)

end Json

end ActorLang
