import ActorLang.Diagnostic.Render
import ActorLang.Proofs.Text.Locations

/-!
# Marks under the text of a label

The marks start under the first character of a span.  There are as many of them as the span has
bytes, cut at the end of the line.
-/

namespace ActorLang

open List

variable {left rest covered text : List Char} {lines : List (List Char)} {map : SourceMap}

/-- A line of the source: the lines before it and its text, without the carriage returns at its end. -/
def IsLine (source : List Char) (lines : List (List Char)) (text : List Char) : Prop :=
  ∃ n below, source = unlines lines ++ (text ++ replicate n '\r' ++ below) ∧ (∀ l ∈ lines, '\n' ∉ l) ∧ '\n' ∉ text ∧
    text.getLast? ≠ some '\r' ∧ ∀ c ∈ below.head?, c = '\n'

theorem SourceMap.lineText_isLine (h : IsLine map.source lines text) :
  map.lineText (lines.length + 1) = text
  := by
  obtain ⟨n, below, hsource, hlines, htext, hlast, hbelow⟩ := h
  have hline : '\n' ∉ text ++ replicate n '\r' := by
    simp [htext]
  obtain ⟨others, hothers⟩ :
      ∃ others, linesOf (text ++ replicate n '\r' ++ below) = (text ++ replicate n '\r') :: others := by
    cases below with
    | nil => exact ⟨[], by rw [append_nil, linesOf_last hline]⟩
    | cons c below =>
      obtain rfl := hbelow c rfl
      exact ⟨_, linesOf_next hline below⟩
  have htrim : (text ++ replicate n '\r').reverse.dropWhile (· == '\r') = text.reverse := by
    rw [reverse_append, dropWhile_append_of_pos (by simp)]
    rw [← head?_reverse] at hlast
    cases hreverse : text.reverse with
    | nil => rfl
    | cons =>
      rw [hreverse] at hlast
      exact dropWhile_cons_of_neg (by simpa using hlast)
  rw [lineText, if_neg (by omega), Nat.add_sub_cancel, SourceMap.lines, hsource,
    linesOf_unlines hlines, getElem?_append_right (Nat.le_refl _), Nat.sub_self, hothers]
  dsimp only [getElem?_cons_zero]
  rw [htrim, reverse_reverse]

theorem length_le_byteLength (cs : List Char) :
  cs.length ≤ byteLength cs ∧ byteLength cs ≤ 4 * cs.length ∧
    (byteLength cs = cs.length ↔ ∀ c ∈ cs, c.utf8Size = 1)
  := by
  induction cs with
  | nil => simp [byteLength]
  | cons c cs ih =>
    have hpos := c.utf8Size_pos
    have hle := c.utf8Size_le_four
    rw [byteLength, length_cons, forall_mem_cons, ← ih.2.2]
    omega

namespace Diagnostic

/-- A line of the source with its number, and below it marks that start under a column, and a message. -/
def markedLine (line : Nat) (text : List Char) (before marks : Nat) (message : String) : String :=
  toString line ++ " " ++ "|" ++ " " ++ String.ofList text ++ "\n" ++
    repeated (toString line).length ' ' ++ " " ++ "|" ++ " " ++
    repeated before ' ' ++ repeated marks '^' ++ (if message.isEmpty then "" else " " ++ message) ++ "\n"

theorem snippet_eq {label : Label} {place : Location} (hplace : map.locate label.span.start = place) (accent : Style) :
  ∃ above, snippet false map accent label = above ++ markedLine place.line (map.lineText place.line) (place.col - 1)
    (markCount (map.lineText place.line) place.col label.span) label.message
  := by
  refine ⟨repeated (toString place.line).length ' ' ++ "-->" ++ " " ++ toString place.line ++ ":" ++
    toString place.col ++ "\n" ++ repeated (toString place.line).length ' ' ++ " " ++ "|" ++ "\n", ?_⟩
  have hplain (style : Style) (text : String) : paint false style text = text := rfl
  delta snippet
  simp only [hplace, hplain, markedLine, String.append_assoc]

theorem render_label {d : Diagnostic} {source : String} {label : Label} (hsource : d.source = some source)
    (hlabel : label ∈ d.labels) :
  ∃ accent above below, d.render false = above ++ snippet false (.ofString source) accent label ++ below
  := by
  obtain ⟨_, _, hlabels⟩ := append_of_mem hlabel
  have haround (a b c d e x : String) : a ++ (b ++ (x ++ c)) ++ d ++ e = a ++ b ++ x ++ (c ++ d ++ e) := by
    simp only [String.append_assoc]
  simp only [render, hsource, hlabels, map_append, map_cons, String.join_append, String.join_cons]
  exact ⟨_, _, _, haround ..⟩

/-- Under the line where a span starts, spaces up to it are followed by marks, one for each of its bytes as far as
the line goes, and at least one.  They underline exactly its characters on the line if and only if it reaches the
end of the line or has no character of more than one byte. -/
theorem render_marks {d : Diagnostic} {source : String} {label : Label} (hsource : d.source = some source)
    (hlabel : label ∈ d.labels) (hline : IsLine source.toList lines (left ++ rest)) (hrest : rest ≠ [])
    (hcovered : unlines lines ++ left ++ covered <+: source.toList)
    (hspan : label.span = ⟨byteLength (unlines lines ++ left), byteLength (unlines lines ++ left ++ covered)⟩) :
  ∃ marks above below, d.render false =
      above ++ markedLine (lines.length + 1) (left ++ rest) left.length marks label.message ++ below ∧
    marks = max 1 (min (byteLength covered) rest.length) ∧
    (marks = max 1 (min covered.length rest.length) ↔
      rest.length ≤ covered.length ∨ ∀ c ∈ covered, c.utf8Size = 1)
  := by
  have hplace : (SourceMap.ofString source).locate label.span.start = ⟨lines.length + 1, left.length + 1⟩ := by
    obtain ⟨_, _, -, hlines, htext, -⟩ := hline
    rw [hspan]
    exact SourceMap.locate_line hlines (fun h => htext (mem_append_left _ h)) ((prefix_append ..).trans hcovered)
  have hcount : markCount (left ++ rest) (left.length + 1) label.span =
      max 1 (min (byteLength covered) rest.length) := by
    rw [markCount, hspan, byteLength_append _ covered]
    simp
  obtain ⟨accent, above, below, hrender⟩ := render_label hsource hlabel
  obtain ⟨above', hsnippet⟩ := snippet_eq hplace accent
  rw [SourceMap.lineText_isLine hline, hcount] at hsnippet
  refine ⟨_, above ++ above', below, ?_, rfl, ?_⟩
  · rw [hrender, hsnippet]
    simp only [String.append_assoc, Nat.add_sub_cancel]
  · have hpos := length_pos_iff.mpr hrest
    obtain ⟨_, _, heq⟩ := length_le_byteLength covered
    rw [← heq]
    omega

/-- A span that goes on after the carriage return at the end of its line. -/
theorem render_marks_cut :
  IsLine "é\nab\r\nc".toList [['é']] ['a', 'b'] ∧ ∃ above below,
    render false { message := "m", labels := [⟨⟨4, 8⟩, "here"⟩], source := some "é\nab\r\nc" } =
      above ++ markedLine 2 ['a', 'b'] 1 1 "here" ++ below
  := by
  have hline : IsLine "é\nab\r\nc".toList [['é']] (['a'] ++ ['b']) :=
    ⟨1, ['\n', 'c'], by decide, by simp, by decide, by decide, by simp⟩
  have hcovered : unlines [['é']] ++ ['a'] ++ ['b', '\r', '\n', 'c'] <+: "é\nab\r\nc".toList := ⟨[], by decide⟩
  obtain ⟨_, above, below, hrender, rfl, -⟩ := @render_marks _ _ _ _
    { message := "m", labels := [⟨⟨4, 8⟩, "here"⟩], source := some "é\nab\r\nc" } _ _ rfl (mem_singleton_self _)
    hline (by decide) hcovered rfl
  exact ⟨hline, above, below, hrender⟩

/-- One character of two bytes gets two marks. -/
theorem render_accented_twice :
  IsLine "é x".toList [] (['é'] ++ [' ', 'x']) ∧ byteLength ['é'] = 2 ∧
    render false { message := "m", labels := [⟨⟨0, 2⟩, ""⟩], source := some "é x" } =
      "error: m\n --> 1:1\n  |\n1 | é x\n  | ^^\n"
  := by
  refine ⟨⟨0, [], by decide, by simp, by decide, by decide, by simp⟩, rfl, ?_⟩
  decide +kernel

end Diagnostic

end ActorLang
