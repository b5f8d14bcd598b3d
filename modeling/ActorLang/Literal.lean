import ActorLang.Number.Shortest
import ActorLang.Number.Decimal
import ActorLang.Text.Quoted

/-!
# Literals

The constants of the language and their canonical text.  A suffix tells the numeric types
apart: `5`, `5L`, `1.5f`, `1.5`, `1.5m`.
-/

namespace ActorLang

inductive Literal where
  | bool (value : Bool)
  | int32 (value : Int32)
  | int64 (value : Int64)
  | flt32 (value : Binary32)
  | flt64 (value : Binary64)
  | dec128 (value : Decimal)
  | char (value : Char)
  | str (value : String)
  | null
  | eof
  deriving DecidableEq, Inhabited

namespace Literal

/-- Floats are positional from `0.0001` up to `10 ^ 16` and keep a fraction digit; a decimal
half way between two shortest ones goes up. -/
def floatNotation : FloatNotation := ⟨-4, 16, false, .up⟩

def escapeChar (c : Char) : List Char :=
  match c with
  | '\n' => ['\\', 'n']
  | '\r' => ['\\', 'r']
  | '\t' => ['\\', 't']
  | '\\' => ['\\', '\\']
  | c => if c.toNat = 0 then ['\\', '0'] else [c]

/-- The text of a literal, characters written by `char`. -/
def renderWith (char : Char → List Char) : Literal → String
  | bool b => if b then "true" else "false"
  | int32 n => toString n.toInt
  | int64 n => toString n.toInt ++ "L"
  | flt32 x => floatNotation.render x ++ "f"
  | flt64 x => floatNotation.render x
  | dec128 x => x.render ++ "m"
  | .char c => String.ofList ('&' :: char c)
  | str s => quoteString s
  | null => "null"
  | eof => "eof"

def render : Literal → String := renderWith escapeChar

end Literal

end ActorLang
