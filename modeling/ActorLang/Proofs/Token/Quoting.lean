import ActorLang.Proofs.Token.Layout

/-!
# Reading quoted strings back

Every character is written as itself or as a backslash and a letter for it, so that the quote at the
end is the first one that closes, and `unescape` finds what was written.
-/

namespace ActorLang

open List

variable {c : Char} {cs rest : List Char}

theorem quoteChar_cases (c : Char) :
  quoteChar c = [c] ∧ c ≠ '\'' ∧ c ≠ '\\' ∨ ∃ e, quoteChar c = ['\\', e] ∧ unescapeChar e = c ∧ e ≠ '\n'
  := by
  fun_cases quoteChar c with
  | case1 => exact .inr ⟨'\'', rfl, rfl, by decide⟩
  | case2 => exact .inr ⟨'\\', rfl, rfl, by decide⟩
  | case3 => exact .inr ⟨'n', rfl, rfl, by decide⟩
  | case4 => exact .inr ⟨'t', rfl, rfl, by decide⟩
  | case5 => exact .inr ⟨'r', rfl, rfl, by decide⟩
  | case6 c hquote hbackslash => exact .inl ⟨rfl, hquote, hbackslash⟩

theorem unescape_quoteChar (c : Char) (rest : List Char) :
  unescape (quoteChar c ++ rest) = c :: unescape rest
  := by
  rcases quoteChar_cases c with ⟨heq, -, hbackslash⟩ | ⟨e, heq, he, -⟩
  · rw [heq, unescape.eq_def]
    simp [hbackslash]
  · rw [heq, cons_append, singleton_append, unescape, he]

theorem unescape_quoted (cs : List Char) :
  unescape (cs.flatMap quoteChar) = cs
  := by
  induction cs with
  | nil => rfl
  | cons c cs ih => rw [flatMap_cons, unescape_quoteChar, ih]

theorem stringLength_quoteChar (c : Char) (rest : List Char) :
  stringLength '\'' (quoteChar c ++ rest) =
    ((stringLength '\'' rest).1, (stringLength '\'' rest).2 + (quoteChar c).length)
  := by
  rcases quoteChar_cases c with ⟨heq, hquote, hbackslash⟩ | ⟨e, heq, -, he⟩
  · rw [heq, stringLength.eq_def]
    simp [hquote, hbackslash]
  · rw [heq, cons_append, singleton_append, stringLength, if_neg he]
    rfl

theorem stringLength_quoted (cs rest : List Char) :
  stringLength '\'' (cs.flatMap quoteChar ++ '\'' :: rest) = (true, (cs.flatMap quoteChar).length + 1)
  := by
  induction cs with
  | nil => rfl
  | cons c cs ih =>
    rw [flatMap_cons, append_assoc, stringLength_quoteChar, ih, length_append]
    congr 1
    omega

theorem scan_quoted (cs rest : List Char) :
  scan '\'' (cs.flatMap quoteChar ++ '\'' :: rest) =
    (.token (.str (String.ofList cs)), (cs.flatMap quoteChar).length + 1)
  := by
  have hscan : scan '\'' (cs.flatMap quoteChar ++ '\'' :: rest) =
      scanString '\'' (cs.flatMap quoteChar ++ '\'' :: rest) := rfl
  rw [hscan, scanString, stringLength_quoted]
  dsimp only
  rw [Nat.add_sub_cancel, take_left, unescape_quoted]

/-- A quoted string is one token: the string, from the first byte of the text to the last. -/
theorem tokenize_quoteString (s : String) :
  tokenize (quoteString s) = .ok [⟨.str s, ⟨0, byteLength (quoteString s).toList⟩⟩]
  := by
  have hscan : scan '\'' (s.toList.flatMap quoteChar ++ ['\''] ++ []) =
      (.token (.str s), (s.toList.flatMap quoteChar ++ ['\'']).length) := by
    rw [append_nil, scan_quoted, String.ofList_toList, length_append, length_singleton]
  rw [quoteString, quoteChars, cons_append, tokenize_alone hscan, String.toList_ofList]

end ActorLang
