/-!
# Spans and source locations

Offsets count the bytes of the UTF-8 form of a text.  `SourceMap` finds the line and the
column of an offset and the text of a line.
-/

namespace ActorLang

/-- The bytes of a source text from `start` up to, not including, `stop`. -/
structure Span where
  start : Nat
  stop : Nat
  deriving DecidableEq, Inhabited

namespace Span

/-- The span of what has no place in a source text. -/
def unknown : Span := ⟨0, 0⟩

/-- The least span around two spans. -/
def merge (a b : Span) : Span := ⟨min a.start b.start, max a.stop b.stop⟩

end Span

def byteLength : List Char → Nat
  | [] => 0
  | c :: cs => c.utf8Size + byteLength cs

/-- A line and a column, both counted from one. -/
structure Location where
  line : Nat
  col : Nat
  deriving DecidableEq

/-- The lines of a source text with their byte offsets. -/
structure SourceMap where
  source : List Char

namespace SourceMap

def ofString (source : String) : SourceMap := ⟨source.toList⟩

def splitLine : List Char → List Char × Option (List Char)
  | [] => ([], none)
  | '\n' :: rest => ([], some rest)
  | c :: rest =>
    let (line, after) := splitLine rest
    (c :: line, after)

theorem splitLine_length {cs rest : List Char} (h : (splitLine cs).2 = some rest) :
  rest.length < cs.length
  := by
  induction cs with
  | nil => simp [splitLine] at h
  | cons c cs ih =>
    unfold splitLine at h
    split at h
    · simp at h
    · simp_all
    · simp_all
      omega

def linesOf (cs : List Char) : List (List Char) :=
  match _h : (splitLine cs).2 with
  | none => [(splitLine cs).1]
  | some rest => (splitLine cs).1 :: linesOf rest
termination_by cs.length
decreasing_by exact splitLine_length (by assumption)

def lines (map : SourceMap) : List (List Char) := linesOf map.source

def lineCount (map : SourceMap) : Nat := map.lines.length

/-- The number of characters that fill the first `offset` bytes, if they end at a character. -/
def charsBefore? : List Char → (offset : Nat) → Option Nat
  | _, 0 => some 0
  | [], _ + 1 => none
  | c :: cs, n + 1 =>
    if c.utf8Size ≤ n + 1 then (charsBefore? cs (n + 1 - c.utf8Size)).map (· + 1) else none

/-- The column of an offset into a line.  Inside a character, bytes are counted. -/
def columnAt (line : List Char) (offset : Nat) : Nat :=
  (charsBefore? line offset).getD offset + 1

/-- Finds an offset among lines: the first line that reaches it, its break included. -/
def locateIn : List (List Char) → (line offset : Nat) → Location
  | [], line, _ => ⟨line, 1⟩
  | [text], line, offset => ⟨line, columnAt text (min offset (byteLength text))⟩
  | text :: rest, line, offset =>
    if offset ≤ byteLength text then ⟨line, columnAt text offset⟩
    else locateIn rest (line + 1) (offset - (byteLength text + 1))

/-- The location of an offset.  Offsets past the end are at the end. -/
def locate (map : SourceMap) (offset : Nat) : Location := locateIn map.lines 1 offset

/-- The text of a line without carriage returns at its end; empty for a line that is not
there. -/
def lineText (map : SourceMap) (line : Nat) : List Char :=
  if line = 0 then []
  else match map.lines[line - 1]? with
    | none => []
    | some text => (text.reverse.dropWhile (· == '\r')).reverse

end SourceMap

end ActorLang
