import ActorLang.Diagnostic.Basic
import ActorLang.Json.Basic

/-!
# The texts of diagnostics

For people, with the lines of the source that are marked; for programs, as a JSON object on one
line.
-/

namespace ActorLang.Diagnostic

/-! ### For people -/

/-- The styles of parts of the text. -/
inductive Style where
  | bold | error | warning | gutter | faint

def Style.code : Style → String
  | bold => "1"
  | error => "1;31"
  | warning => "1;33"
  | gutter => "36"
  | faint => "2"

def paint (color : Bool) (style : Style) (text : String) : String :=
  if color then "\x1b[" ++ style.code ++ "m" ++ text ++ "\x1b[0m" else text

def repeated (n : Nat) (c : Char) : String := String.ofList (List.replicate n c)

/-- The number of marks under a line: as many as the span has bytes and the line has characters
left, but at least one. -/
def markCount (text : List Char) (col : Nat) (span : Span) : Nat :=
  max 1 (min (span.stop - span.start) (text.length - (col - 1)))

def snippet (color : Bool) (map : SourceMap) (accent : Style) (label : Label) : String :=
  let place := map.locate label.span.start
  let text := map.lineText place.line
  let number := toString place.line
  let blank := repeated number.length ' '
  let bar := paint color .gutter "|"
  let marks := repeated (markCount text place.col label.span) '^'
  let marker := repeated (place.col - 1) ' ' ++ paint color accent marks ++
    if label.message.isEmpty then "" else " " ++ paint color accent label.message
  blank ++ paint color .gutter "-->" ++ " " ++ number ++ ":" ++ toString place.col ++ "\n" ++
    blank ++ " " ++ bar ++ "\n" ++
    paint color .gutter number ++ " " ++ bar ++ " " ++ String.ofList text ++ "\n" ++
    blank ++ " " ++ bar ++ " " ++ marker ++ "\n"

def render (color : Bool) (d : Diagnostic) : String :=
  let accent := match d.severity with
    | .error => Style.error
    | .warning => Style.warning
  let heading := match d.code with
    | some code => d.severity.name ++ "[" ++ code ++ "]"
    | none => d.severity.name
  let aside (kind text : String) : String :=
    "  " ++ paint color .faint "=" ++ " " ++ kind ++ ": " ++ text ++ "\n"
  let snippets := match d.source with
    | some source => d.labels.map (snippet color (.ofString source) accent)
    | none => []
  paint color accent heading ++ ": " ++ paint color .bold d.message ++ "\n" ++
    String.join snippets ++ String.join (d.notes.map (aside "note")) ++
    String.join (d.suggestion.toList.map (aside "suggestion"))

/-! ### For programs -/

def labelJson (source : Option String) (label : Label) : Json :=
  let place := match source with
    | some source =>
      let place := (SourceMap.ofString source).locate label.span.start
      [("line", .int place.line), ("col", .int place.col)]
    | none => []
  .object ([("start", .int label.span.start), ("end", .int label.span.stop),
    ("message", .string label.message)] ++ place)

def toJson (d : Diagnostic) : Json :=
  let optional (name : String) (text : Option String) : List (String × Json) :=
    text.toList.map fun t => (name, .string t)
  .object ([("severity", .string d.severity.name)] ++ optional "code" d.code ++
    [("message", .string d.message), ("labels", .array (d.labels.map (labelJson d.source))),
     ("notes", .array (d.notes.map .string))] ++ optional "suggestion" d.suggestion)

end ActorLang.Diagnostic
