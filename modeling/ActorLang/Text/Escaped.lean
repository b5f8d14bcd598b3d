import ActorLang.Text.Shown

/-!
# Escaped strings in messages

How a message shows a string or a character that comes from a program: between quotes, with
the characters that a reader would not see replaced by escapes.
-/

namespace ActorLang

def hexDigits (n : Nat) : List Char := Nat.toDigits 16 n

def codePointEscape (c : Char) : List Char :=
  ['\\', 'u', '\x7b'] ++ hexDigits c.toNat ++ ['\x7d']

def escapedBetween (quote : Char) (c : Char) : List Char :=
  if c = quote ∨ c = '\\' then ['\\', c]
  else if c = '\n' then ['\\', 'n']
  else if c = '\r' then ['\\', 'r']
  else if c = '\t' then ['\\', 't']
  else if c.toNat = 0 then ['\\', '0']
  else if isShown c then [c]
  else codePointEscape c

def escapedChar (c : Char) : String :=
  String.ofList ('\'' :: escapedBetween '\'' c ++ ['\''])

def escapedString (s : String) : String :=
  String.ofList ('"' :: s.toList.flatMap (escapedBetween '"') ++ ['"'])

end ActorLang
