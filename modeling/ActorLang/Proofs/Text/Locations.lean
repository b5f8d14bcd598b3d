import ActorLang.Proofs.Token.Layout

/-!
# Locations are exact

A text is whole lines and the start of one more line.  The line of its end comes after the whole
lines, and the column after the characters of the start.
-/

namespace ActorLang

open List

variable {text left cs : List Char} {rest : Option (List Char)} {lines others : List (List Char)} {map : SourceMap}
  {line offset o o' : Nat}

/-- The offset is the end of a part at the front of the text. -/
def Boundary (source : List Char) (offset : Nat) : Prop := ∃ p, p <+: source ∧ byteLength p = offset

/-- The text of whole lines. -/
def unlines (lines : List (List Char)) : List Char := lines.flatMap (· ++ ['\n'])

/-- On an earlier line, or further left on the same one. -/
def Location.Precedes (a b : Location) : Prop := a.line < b.line ∨ a.line = b.line ∧ a.col < b.col

@[simp] theorem unlines_nil :
  unlines [] = []
  := rfl

theorem unlines_cons (text : List Char) (lines : List (List Char)) :
  unlines (text :: lines) = text ++ '\n' :: unlines lines
  := by
  simp [unlines]

namespace SourceMap

/-! ### Lines -/

theorem exists_unlines (cs : List Char) :
  ∃ lines left, cs = unlines lines ++ left ∧ (∀ l ∈ lines, '\n' ∉ l) ∧ '\n' ∉ left
  := by
  induction cs using reverseRecOn with
  | nil => exact ⟨[], [], rfl, forall_mem_nil _, not_mem_nil⟩
  | append_singleton cs c ih =>
    obtain ⟨lines, left, rfl, hlines, hleft⟩ := ih
    by_cases hc : c = '\n'
    · refine ⟨lines ++ [left], [], ?_, forall_mem_append.mpr ⟨hlines, forall_mem_singleton.mpr hleft⟩, not_mem_nil⟩
      simp [hc, unlines]
    · exact ⟨lines, left ++ [c], by simp, hlines, by simp [hleft, Ne.symm hc]⟩

theorem splitLine_append (h : '\n' ∉ text) (hcs : splitLine cs = ([], rest)) :
  splitLine (text ++ cs) = (text, rest)
  := by
  induction text with
  | nil => exact hcs
  | cons c _ ih =>
    rw [mem_cons, not_or] at h
    rw [cons_append, splitLine, ih h.2]
    exact Ne.symm h.1

theorem linesOf_eq (h : splitLine cs = (text, rest)) :
  linesOf cs = text :: rest.elim [] linesOf
  := by
  rw [linesOf]
  split
  all_goals
    rename_i heq
    rw [h] at heq ⊢
    cases heq
    rfl

theorem linesOf_last (h : '\n' ∉ text) :
  linesOf text = [text]
  := by
  have hsplit : splitLine (text ++ []) = (text, none) := splitLine_append h rfl
  rw [append_nil] at hsplit
  exact linesOf_eq hsplit

theorem linesOf_next (h : '\n' ∉ text) (cs : List Char) :
  linesOf (text ++ '\n' :: cs) = text :: linesOf cs
  := by
  have hsplit : splitLine (text ++ '\n' :: cs) = (text, some cs) := splitLine_append h rfl
  exact linesOf_eq hsplit

theorem linesOf_unlines (h : ∀ l ∈ lines, '\n' ∉ l) (cs : List Char) :
  linesOf (unlines lines ++ cs) = lines ++ linesOf cs
  := by
  induction lines with
  | nil => rfl
  | cons _ _ ih =>
    obtain ⟨htext, hlines⟩ := forall_mem_cons.mp h
    rw [unlines_cons, append_assoc, cons_append, linesOf_next htext, ih hlines, cons_append]

theorem linesOf_append (h : '\n' ∉ left) (cs : List Char) :
  ∃ text others, linesOf (left ++ cs) = (left ++ text) :: others
  := by
  obtain ⟨lines, text, rfl, hlines, htext⟩ := exists_unlines cs
  cases lines with
  | nil => exact ⟨text, [], linesOf_last (by simp [h, htext])⟩
  | cons first lines =>
    obtain ⟨hfirst, -⟩ := forall_mem_cons.mp hlines
    refine ⟨first, linesOf (unlines lines ++ text), ?_⟩
    rw [unlines_cons, append_assoc, cons_append, ← append_assoc, linesOf_next (by simp [h, hfirst])]

theorem count_unlines (h : ∀ l ∈ lines, '\n' ∉ l) :
  (unlines lines).count '\n' = lines.length
  := by
  induction lines with
  | nil => rfl
  | cons _ _ ih =>
    obtain ⟨htext, hlines⟩ := forall_mem_cons.mp h
    rw [unlines_cons, count_append, count_cons_self, count_eq_zero_of_not_mem htext, ih hlines, Nat.zero_add,
      length_cons]

/-! ### Offsets in lines -/

theorem charsBefore?_append (p q : List Char) :
  charsBefore? (p ++ q) (byteLength p) = some p.length
  := by
  induction p with
  | nil => rw [byteLength, charsBefore?, length_nil]
  | cons c p ih =>
    obtain ⟨n, hn⟩ := Nat.exists_eq_succ_of_ne_zero c.utf8Size_pos.ne'
    have hlength : n + byteLength p + 1 - c.utf8Size = byteLength p := by omega
    rw [cons_append, byteLength, hn, Nat.succ_add, charsBefore?, if_pos (by omega), hlength, ih]
    rfl

theorem locateIn_first (h : offset ≤ byteLength text) :
  locateIn (text :: lines) line offset = ⟨line, columnAt text offset⟩
  := by
  cases lines with
  | nil => rw [locateIn, Nat.min_eq_left h]
  | cons => rw [locateIn, if_pos h]; simp

theorem locateIn_later (h : lines ≠ []) (line n : Nat) :
  locateIn (text :: lines) line (byteLength text + 1 + n) = locateIn lines (line + 1) n
  := by
  cases lines with
  | nil => cases h rfl
  | cons => rw [locateIn, if_neg (by omega), Nat.add_sub_cancel_left]; exact h

theorem locateIn_append (h : others ≠ []) (lines : List (List Char)) (line n : Nat) :
  locateIn (lines ++ others) line (byteLength (unlines lines) + n) = locateIn others (line + lines.length) n
  := by
  induction lines generalizing line with
  | nil => rw [unlines_nil, byteLength, Nat.zero_add]; rfl
  | cons text lines ih =>
    have hlength : byteLength (unlines (text :: lines)) + n = byteLength text + 1 + (byteLength (unlines lines) + n) := by
      rw [unlines_cons, byteLength_append, byteLength, Nat.add_assoc, Nat.add_assoc, Nat.add_assoc]
      rfl
    rw [hlength, cons_append, locateIn_later (by simp [h]), ih, length_cons, Nat.add_right_comm, Nat.add_assoc]

theorem locate_line (hlines : ∀ l ∈ lines, '\n' ∉ l) (hleft : '\n' ∉ left) (h : unlines lines ++ left <+: map.source) :
  map.locate (byteLength (unlines lines ++ left)) = ⟨lines.length + 1, left.length + 1⟩
  := by
  obtain ⟨right, hright⟩ := h
  obtain ⟨_, _, heq⟩ := linesOf_append hleft right
  rw [locate, SourceMap.lines, ← hright, append_assoc, linesOf_unlines hlines, heq, byteLength_append,
    locateIn_append (cons_ne_nil _ _), locateIn_first (by rw [byteLength_append]; omega), columnAt,
    charsBefore?_append, Nat.add_comm]
  rfl

theorem locate_precedes (ho : Boundary map.source o) (ho' : Boundary map.source o') (h : o < o') :
  (map.locate o).Precedes (map.locate o')
  := by
  obtain ⟨p, hp, rfl⟩ := ho
  obtain ⟨_, hp', rfl⟩ := ho'
  obtain ⟨lines, left, rfl, hlines, hleft⟩ := exists_unlines p
  rw [locate_line hlines hleft hp]
  obtain ⟨q, rfl⟩ | ⟨q, hq⟩ := prefix_or_prefix_of_prefix hp hp'
  · -- what the longer text has more either goes on with the line, or ends it
    obtain ⟨more, right, rfl, hmore, hright⟩ := exists_unlines q
    cases more with
    | nil =>
      have hpos : 0 < right.length := by
        rw [length_pos_iff]
        rintro rfl
        simp at h
      rw [unlines_nil, nil_append, append_assoc] at hp' ⊢
      rw [locate_line hlines (by simp [hleft, hright]) hp', length_append]
      exact .inr ⟨rfl, by dsimp only; omega⟩
    | cons text more =>
      obtain ⟨htext, hmore⟩ := forall_mem_cons.mp hmore
      have heq : unlines lines ++ left ++ (unlines (text :: more) ++ right) =
          unlines (lines ++ (left ++ text) :: more) ++ right := by
        simp [unlines]
      rw [heq] at hp' ⊢
      rw [locate_line (forall_mem_append.mpr ⟨hlines, forall_mem_cons.mpr ⟨by simp [hleft, htext], hmore⟩⟩) hright hp',
        length_append, length_cons]
      exact .inl (by dsimp only; omega)
  · rw [← hq, byteLength_append _ q] at h
    omega

/-- The location of every offset at a character is exact: the line comes after the whole lines before it, and the
column counts the characters from there.  Later offsets have later locations, up to the end of the text. -/
theorem locate_exact (map : SourceMap) :
  (∀ o, Boundary map.source o → ∃ lines left right, map.source = unlines lines ++ left ++ right ∧
      (∀ l ∈ lines, '\n' ∉ l) ∧ '\n' ∉ left ∧ o = byteLength (unlines lines) + byteLength left ∧
      map.locate o = ⟨lines.length + 1, left.length + 1⟩ ∧ (map.locate o).line ≤ map.lineCount) ∧
    (∀ o o', Boundary map.source o → Boundary map.source o' → o < o' → (map.locate o).Precedes (map.locate o')) ∧
    (∀ o o', Boundary map.source o → Boundary map.source o' → map.locate o = map.locate o' → o = o') ∧
    (∀ o, byteLength map.source ≤ o → map.locate o = map.locate (byteLength map.source)) ∧
    map.lineCount = map.source.count '\n' + 1
  := by
  obtain ⟨lines, last, hsource, hlines, hlast⟩ := exists_unlines map.source
  have hall : map.lines = lines ++ [last] := by
    rw [SourceMap.lines, hsource, linesOf_unlines hlines, linesOf_last hlast]
  have hcount : map.lineCount = map.source.count '\n' + 1 := by
    rw [lineCount, hall, hsource, count_append, count_unlines hlines, count_eq_zero_of_not_mem hlast]
    simp
  have hirrefl (a : Location) : ¬a.Precedes a := by
    unfold Location.Precedes
    omega
  refine ⟨?_, fun o o' => locate_precedes, ?_, ?_, hcount⟩
  · rintro o ⟨p, ⟨right, hright⟩, rfl⟩
    obtain ⟨lines, left, rfl, hlines, hleft⟩ := exists_unlines p
    have hlocate := locate_line hlines hleft ⟨right, hright⟩
    refine ⟨lines, left, right, hright.symm, hlines, hleft, byteLength_append .., hlocate, ?_⟩
    rw [hlocate, hcount, ← hright, count_append, count_append, count_unlines hlines]
    dsimp only
    omega
  · intro o o' ho ho' heq
    rcases Nat.lt_trichotomy o o' with h | h | h
    · exact absurd (heq ▸ locate_precedes ho ho' h) (hirrefl _)
    · exact h
    · exact absurd (heq ▸ locate_precedes ho' ho h) (hirrefl _)
  · intro o ho
    rw [hsource, byteLength_append] at ho ⊢
    obtain ⟨n, rfl⟩ := Nat.exists_eq_add_of_le ho
    rw [locate, locate, hall, Nat.add_assoc, locateIn_append (cons_ne_nil _ _), locateIn_append (cons_ne_nil _ _),
      locateIn, locateIn, Nat.min_self, Nat.min_eq_right (Nat.le_add_right ..)]

/-- After the line break of a text, before and after a character of two bytes. -/
theorem locate_exact_accented :
  Boundary ['a', '\n', 'é'] 2 ∧ Boundary ['a', '\n', 'é'] 4 ∧ (SourceMap.mk ['a', '\n', 'é']).locate 4 = ⟨2, 2⟩ ∧
    ((SourceMap.mk ['a', '\n', 'é']).locate 2).Precedes ((SourceMap.mk ['a', '\n', 'é']).locate 4)
  := by
  have h : Boundary ['a', '\n', 'é'] 2 := ⟨['a', '\n'], ⟨['é'], rfl⟩, rfl⟩
  have h' : Boundary ['a', '\n', 'é'] 4 := ⟨['a', '\n', 'é'], prefix_rfl, rfl⟩
  exact ⟨h, h', by cbv, (locate_exact ⟨['a', '\n', 'é']⟩).2.1 2 4 h h' (by decide)⟩

end SourceMap

end ActorLang
