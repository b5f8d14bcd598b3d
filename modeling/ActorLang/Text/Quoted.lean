/-!
# Quoted strings and escapes

A string is written between quotes with its quotes, backslashes and line-control characters
escaped by a backslash.  `unescape` reads the part between the quotes back.
-/

namespace ActorLang

def quoteChar : Char → List Char
  | '\'' => ['\\', '\'']
  | '\\' => ['\\', '\\']
  | '\n' => ['\\', 'n']
  | '\t' => ['\\', 't']
  | '\r' => ['\\', 'r']
  | c => [c]

def quoteChars (s : List Char) : List Char :=
  '\'' :: s.flatMap quoteChar ++ ['\'']

def quoteString (s : String) : String := String.ofList (quoteChars s.toList)

/-- The character that a backslash and a character stand for. -/
def unescapeChar : Char → Char
  | 'n' => '\n'
  | 'r' => '\r'
  | 't' => '\t'
  | '0' => Char.ofNat 0
  | c => c

def unescape : List Char → List Char
  | '\\' :: c :: rest => unescapeChar c :: unescape rest
  | c :: rest => c :: unescape rest
  | [] => []

end ActorLang
