import ActorLang.Token.Scan
import Mathlib

/-!
# How a token ends

What is read at the front of a text depends on what follows it only up to a blank: a token that
has been read is read again from its own characters, if a blank or nothing comes after them.
-/

namespace ActorLang

open List

/-- The text is empty or starts with a blank. -/
def Ends (after : List Char) : Prop := ∀ c ∈ after.head?, isLayout c = true

variable {c quote d : Char} {cs after : List Char} {t : Token}

theorem isLayout_cases (h : isLayout c = true) :
  c = ' ' ∨ c = '\t' ∨ c = '\r' ∨ c = '\n' ∨ c = '\x0c'
  := by
  simpa [isLayout, or_assoc] using h

theorem takeWhile_append_stop {p : Char → Bool} {run rest : List Char}
    (hrun : ∀ c ∈ run, p c = true) (hrest : ∀ c ∈ rest.head?, p c = false) :
  (run ++ rest).takeWhile p = run
  := by
  rw [takeWhile_append_of_pos hrun]
  cases rest with
  | nil => simp
  | cons c => rw [takeWhile_cons_of_neg (by simp [hrest c rfl]), append_nil]

/-- What is read at the front of the text is a part of it, and read again from that part alone or
before a blank. -/
def Settled (read : List Char → Scanned × Nat) (cs : List Char) : Prop :=
  ∃ text rest, cs = text ++ rest ∧ (read cs).2 = text.length ∧ ∀ after, Ends after → read (text ++ after) = read cs

/-! ### Numbers -/

/-- The text does not go on with digits or a fraction. -/
def EndsDigits (rest : List Char) : Prop := ∀ c ∈ rest.head?, c.isDigit = false ∧ c ≠ '.'

/-- The text does not go on with anything that could belong to a number but a letter after it. -/
def EndsNumber (rest : List Char) : Prop :=
  EndsDigits rest ∧ ∀ c ∈ rest.head?, ¬(c = 'e' ∨ c = 'E')

theorem Ends.endsNumber (h : Ends after) :
  EndsNumber after
  := by
  refine ⟨fun c hc => ?_, fun c hc => ?_⟩
  all_goals rcases isLayout_cases (h c hc) with rfl | rfl | rfl | rfl | rfl <;> decide

theorem fractionPart_again (cs : List Char) :
  ∃ rest, cs = fractionPart cs ++ rest ∧ ∀ after, EndsDigits after →
    fractionPart (fractionPart cs ++ after) = fractionPart cs ∧
      ∀ c ∈ (fractionPart cs ++ after).head?, c.isDigit = false
  := by
  have hnone {after : List Char} (h : EndsDigits after) : fractionPart after = [] := by
    rw [fractionPart.eq_def]
    split
    · exact absurd rfl (h '.' rfl).2
    · rfl
  fun_cases fractionPart cs with
  | case1 | case3 => exact ⟨_, rfl, fun after h => ⟨hnone h, fun c hc => (h c hc).1⟩⟩
  | case2 cs =>
    refine ⟨cs.dropWhile Char.isDigit, ?_, fun after hafter => ⟨?_, by rintro c ⟨⟩; decide⟩⟩
    · rw [cons_append, takeWhile_append_dropWhile]
    · rw [cons_append, fractionPart, takeWhile_append_stop (fun _ => mem_takeWhile_imp) fun c hc => (hafter c hc).1]
      split
      · contradiction
      · rfl

theorem exponentPart_eq_nil (h : EndsNumber cs) :
  exponentPart cs = []
  := by
  cases cs with
  | nil => rfl
  | cons c =>
    exact if_neg (h.2 c rfl)

/-- The exponent is read again before a text that does not continue the number. -/
def ReadAgain (exp : List Char) : Prop :=
  ∀ after, EndsNumber after → exponentPart (exp ++ after) = exp ∧ EndsDigits (exp ++ after)

theorem readAgain_nil :
  ReadAgain []
  := fun _ h => ⟨exponentPart_eq_nil h, h.1⟩

theorem exponentPart_again (cs : List Char) :
  ReadAgain (exponentPart cs) ∧ ∃ rest, cs = exponentPart cs ++ rest
  := by
  fun_cases exponentPart cs with
  | case1 | case3 | case4 => exact ⟨readAgain_nil, _, rfl⟩
  | case2 _ cs hmark _ cs' hsign hdigits =>
    refine ⟨fun after hafter => ⟨?_, ?_⟩, cs'.dropWhile Char.isDigit, ?_⟩
    · generalize hds : cs'.takeWhile Char.isDigit = digits at hdigits ⊢
      have hall : ∀ c ∈ digits, c.isDigit = true := hds ▸ fun _ => mem_takeWhile_imp
      have hread := takeWhile_append_stop hall fun c hc => (hafter.1 c hc).1
      obtain ⟨d, _, rfl⟩ := exists_cons_of_ne_nil hdigits
      have hd := hall d (.head _)
      split at hsign <;> cases hsign
      case h_3 =>
        rw [append_assoc, cons_append, nil_append, exponentPart, if_pos hmark, hread]
        all_goals
          rintro r ⟨⟩
          cases hd
      all_goals
        rw [append_assoc, cons_append, cons_append, nil_append, exponentPart, if_pos hmark, hread]
    · rintro c ⟨⟩
      rcases hmark with rfl | rfl <;> decide
    · rw [cons_append, cons_append, append_assoc, takeWhile_append_dropWhile]
      split at hsign <;> cases hsign <;> rfl

/-- The letters that end a number. -/
def suffixLetters : List Char := ['f', 'F', 'd', 'D', 'm', 'M', 'l', 'L']

theorem endsNumber_letter (hc : c ∈ suffixLetters) (after : List Char) :
  isLayout c = false ∧ EndsNumber (c :: after)
  := by
  simp only [suffixLetters, mem_cons, not_mem_nil, or_false] at hc
  rcases hc with rfl | rfl | rfl | rfl | rfl | rfl | rfl | rfl <;>
    simp [EndsNumber, EndsDigits] <;> decide

theorem exists_of_startsIn {letters : List Char} (h : startsIn letters cs = true) :
  ∃ c ∈ letters, ∃ rest, cs = c :: rest
  := by
  cases cs with
  | nil => cases h
  | cons c rest => exact ⟨c, contains_iff_mem.mp h, rest, rfl⟩

/-- The number is read again before a blank. -/
def NumberReads (plain frac cs : List Char) (r : Scanned × Nat) : Prop :=
  ∃ part rest, cs = part ++ rest ∧ r.2 = (plain ++ part).length ∧
    ∀ after, Ends after → EndsDigits (part ++ after) ∧ numberBefore plain frac (part ++ after) = r

section

variable {plain frac cs exp tail letters : List Char} {r : Scanned × Nat}

theorem numberReads_letter (hexp : ReadAgain exp) (hcs : cs = exp ++ tail)
    (hstart : startsIn letters tail = true) (hletters : letters ⊆ suffixLetters)
    (hn : r.2 = (plain ++ exp).length + 1)
    (hr : ∀ c ∈ letters, ∀ after, exponentPart (exp ++ c :: after) = exp →
      numberBefore plain frac (exp ++ c :: after) = r) :
  NumberReads plain frac cs r
  := by
  obtain ⟨c, hc, tail, rfl⟩ := exists_of_startsIn hstart
  refine ⟨exp ++ [c], tail, by simp [hcs], by simp [hn, Nat.add_assoc], fun after _ => ?_⟩
  obtain ⟨hread, hends⟩ := hexp (c :: after) (endsNumber_letter (hletters hc) after).2
  rw [append_assoc]
  exact ⟨hends, hr c hc after hread⟩

theorem numberReads_end (hexp : ReadAgain exp) (hcs : cs = exp ++ tail) (hn : r.2 = (plain ++ exp).length)
    (hr : ∀ after, exponentPart (exp ++ after) = exp → startsIn ['f', 'F'] after = false →
      startsIn ['d', 'D'] after = false → startsIn ['m', 'M'] after = false →
      startsIn ['l', 'L'] after = false → numberBefore plain frac (exp ++ after) = r) :
  NumberReads plain frac cs r
  := by
  refine ⟨exp, tail, hcs, hn, fun after hafter => ?_⟩
  obtain ⟨hread, hends⟩ := hexp after hafter.endsNumber
  have hnone {letters : List Char} (hletters : letters ⊆ suffixLetters) :
      startsIn letters after = false := by
    by_contra hstart
    obtain ⟨c, hc, _, rfl⟩ := exists_of_startsIn (Bool.of_not_eq_false hstart)
    have := (endsNumber_letter (hletters hc) []).1
    rw [hafter c rfl] at this
    cases this
  exact ⟨hends, hr after hread (hnone (by decide)) (hnone (by decide)) (hnone (by decide)) (hnone (by decide))⟩

theorem numberReads_numberBefore :
  NumberReads plain frac cs (numberBefore plain frac cs)
  := by
  obtain ⟨hexp, rest, hcs⟩ := exponentPart_again cs
  generalize hread : exponentPart cs = exp at hexp hcs
  subst hcs
  have hnil := readAgain_nil
  unfold numberBefore
  simp only [hread, drop_left]
  by_cases hf : (!exp.isEmpty && startsIn ['f', 'F'] rest) = true
  · rw [if_pos hf]
    rw [Bool.and_eq_true] at hf
    exact numberReads_letter hexp rfl hf.2 (by decide) rfl (by simp_all [numberBefore, startsIn])
  rw [if_neg hf]
  by_cases hd : (!exp.isEmpty && !frac.isEmpty) = true
  · rw [if_pos hd]
    cases hlast : startsIn ['d', 'D'] rest with
    | true =>
      exact numberReads_letter hexp rfl hlast (by decide) rfl (by simp_all [numberBefore, startsIn])
    | false => exact numberReads_end hexp rfl rfl (by simp_all [numberBefore])
  rw [if_neg hd]
  by_cases hf : startsIn ['f', 'F'] (exp ++ rest) = true
  · rw [if_pos hf]
    exact numberReads_letter hnil rfl hf (by decide) (by simp) (by simp_all [numberBefore, startsIn])
  rw [if_neg hf]
  by_cases hm : startsIn ['m', 'M'] (exp ++ rest) = true
  · rw [if_pos hm]
    exact numberReads_letter hnil rfl hm (by decide) (by simp) (by simp_all [numberBefore, startsIn])
  rw [if_neg hm]
  by_cases hfrac : frac.isEmpty = true
  · rw [if_pos hfrac]
    by_cases hl : startsIn ['l', 'L'] (exp ++ rest) = true
    · rw [if_pos hl]
      exact numberReads_letter hnil rfl hl (by decide) (by simp) (by simp_all [numberBefore, startsIn])
    · rw [if_neg hl]
      exact numberReads_end hnil rfl (by simp) (by simp_all [numberBefore])
  rw [if_neg hfrac]
  cases hlast : startsIn ['d', 'D'] (exp ++ rest) with
  | true =>
    exact numberReads_letter hnil rfl hlast (by decide) (by simp) (by simp_all [numberBefore, startsIn])
  | false => exact numberReads_end hnil rfl (by simp) (by simp_all [numberBefore])

end

theorem settled_scanNumber (cs : List Char) :
  Settled scanNumber cs
  := by
  generalize hwhole : cs.takeWhile Char.isDigit = whole
  have hdigits : ∀ c ∈ whole, c.isDigit = true := hwhole ▸ fun _ => mem_takeWhile_imp
  obtain ⟨x, rfl⟩ : ∃ x, cs = whole ++ x :=
    ⟨cs.dropWhile Char.isDigit, by rw [← hwhole, takeWhile_append_dropWhile]⟩
  obtain ⟨y, hy, hfrac⟩ := fractionPart_again x
  generalize hread : fractionPart x = frac at hy hfrac
  subst hy
  have hdrop (z : List Char) : (whole ++ (frac ++ z)).drop (whole ++ frac).length = z := by
    rw [← append_assoc, drop_left]
  have hhere : scanNumber (whole ++ (frac ++ y)) = numberBefore (whole ++ frac) frac y := by
    simp only [scanNumber, hwhole, drop_left, hread, hdrop]
  obtain ⟨part, rest, rfl, hlength, hagain⟩ := @numberReads_numberBefore (whole ++ frac) frac y
  rw [Settled, hhere]
  refine ⟨whole ++ frac ++ part, rest, by simp, hlength, fun after hafter => ?_⟩
  obtain ⟨hends, hagain⟩ := hagain after hafter
  obtain ⟨hfrac, hstop⟩ := hfrac _ hends
  rw [← hagain, append_assoc, append_assoc]
  simp only [scanNumber, takeWhile_append_stop hdigits hstop, drop_left, hfrac, hdrop]

/-! ### Names, strings, characters and marks -/

theorem settled_name (cs : List Char) :
  Settled (fun cs => (.token (nameToken (String.ofList (c :: cs.takeWhile isNameRest))),
    (cs.takeWhile isNameRest).length)) cs
  := by
  refine ⟨cs.takeWhile isNameRest, cs.dropWhile isNameRest,
    takeWhile_append_dropWhile.symm, rfl, fun after hafter => ?_⟩
  dsimp only
  rw [takeWhile_append_stop (fun _ => mem_takeWhile_imp)]
  intro d hd
  rcases isLayout_cases (hafter d hd) with rfl | rfl | rfl | rfl | rfl <;> decide

theorem stringLength_closed (hquote : quote ≠ '\\') (h : (stringLength quote cs).1 = true) :
  ∃ text rest, cs = text ++ rest ∧ ∀ after, stringLength quote (text ++ after) = (true, text.length)
  := by
  fun_induction stringLength quote cs with
  | case1 | case2 => cases h
  | case3 c rest hc _ n heq ih =>
    rw [heq] at ih
    obtain ⟨text, rest, rfl, hread⟩ := ih h
    exact ⟨'\\' :: c :: text, rest, rfl, fun after => by simp [stringLength, hc, hread]⟩
  | case4 rest => exact ⟨[quote], rest, rfl, fun after => by simp [stringLength, hquote]⟩
  | case5 c rest hescape hc _ n heq ih =>
    rw [heq] at ih
    obtain ⟨text, rest, rfl, hread⟩ := ih h
    refine ⟨c :: text, rest, rfl, fun after => ?_⟩
    by_cases hc' : c = '\\'
    · subst hc'
      cases text with
      | nil => simpa [stringLength] using hread []
      | cons d => cases hescape d _ rfl rfl
    · simp [stringLength, hc, hc', hread]

theorem settled_scanString (hquote : quote ≠ '\\') (h : (scanString quote cs).1 = .token t) :
  Settled (scanString quote) cs
  := by
  unfold scanString at h
  split at h
  case h_2 => cases h
  case h_1 n heq =>
    obtain ⟨text, rest, rfl, hread⟩ := stringLength_closed hquote (by rw [heq])
    have hscan (after : List Char) : scanString quote (text ++ after) =
        (.token (.str (String.ofList (unescape (text.take (text.length - 1))))), text.length) := by
      simp only [scanString, hread, take_append_of_le_length (Nat.sub_le _ 1)]
    exact ⟨text, rest, rfl, by rw [hscan], fun after _ => by rw [hscan, hscan]⟩

theorem settled_scanChar (h : (scanChar cs).1 = .token t) :
  Settled scanChar cs
  := by
  fun_cases scanChar cs with
  | case1 rest => exact ⟨['&'], rest, rfl, rfl, fun _ _ => rfl⟩
  | case2 e rest he =>
    have hread (rest : List Char) :
        scanChar ('\\' :: e :: rest) = (.token (.char (unescapeChar e)), 2) := by
      rw [scanChar, if_pos he]
    exact ⟨['\\', e], rest, rfl, by rw [hread]; rfl, fun _ _ => (hread _).trans (hread _).symm⟩
  | case3 e _ he =>
    rw [scanChar, if_neg he] at h
    cases h
  | case4 | case7 => cases h
  | case5 =>
    rw [scanChar.eq_def] at h
    simp_all
  | case6 c rest' _ hescape hend =>
    have hread (rest : List Char) : scanChar (c :: rest) = (.token (.char c), 1) := by
      have hc' : c ≠ '\\' := by
        rintro rfl
        cases hrest : rest' with
        | nil => exact hend rfl hrest
        | cons e rest => exact hescape e rest rfl hrest
      rw [scanChar.eq_def]
      simp_all
    exact ⟨[c], rest', rfl, by rw [hread]; rfl, fun _ _ => (hread _).trans (hread _).symm⟩

theorem settled_longer (hd : isLayout d = false) {short long : Scanned} (cs : List Char) :
  Settled (fun cs => if cs.head? = some d then (long, 1) else (short, 0)) cs
  := by
  by_cases h : cs.head? = some d
  · obtain ⟨rest, rfl⟩ := List.head?_eq_some_iff.mp h
    exact ⟨[d], rest, rfl, by simp, fun _ _ => by simp⟩
  · refine ⟨[], cs, rfl, by simp [h], fun after hafter => ?_⟩
    have hafter : after.head? ≠ some d := by
      intro heq
      rw [hafter d heq] at hd
      cases hd
    simp [h, hafter]

theorem settled_scanMark (h : (scanMark c cs).1 = .token t) :
  Settled (scanMark c) cs
  := by
  fun_cases scanMark c cs
  case case9 hdots =>
    obtain ⟨rest, rfl⟩ : ∃ rest, cs = '.' :: '.' :: rest :=
      ⟨cs.drop 2, by rw [← take_append_drop 2 cs, hdots]; rfl⟩
    exact ⟨['.', '.'], rest, rfl, rfl, fun _ _ => rfl⟩
  case case10 hdots =>
    have hread {cs : List Char} (h : cs.take 2 ≠ ['.', '.']) :
        scanMark '.' cs = (.token (.mark .dot), 0) := if_neg h
    refine ⟨[], cs, rfl, by rw [hread hdots]; rfl, fun after hafter => ?_⟩
    rw [hread hdots, nil_append, hread]
    intro heq
    cases hafter '.' (by rw [← take_append_drop 2 after, heq]; rfl)
  case case25 =>
    unfold scanMark at h
    simp_all
  all_goals first
    | exact ⟨[], cs, rfl, rfl, fun _ _ => rfl⟩
    | exact settled_longer rfl cs

theorem scanNumber_ne_zero (hc : c.isDigit = true) (cs : List Char) :
  (scanNumber (c :: cs)).2 ≠ 0
  := by
  unfold scanNumber numberBefore
  simp only [takeWhile_cons_of_pos hc]
  repeat' split
  all_goals simp

/-- A token is read again from its own characters, alone or before a blank. -/
theorem settled_scan (h : (scan c cs).1 = .token t) :
  Settled (scan c) cs
  := by
  have hcongr {read : List Char → Scanned × Nat} (heq : ∀ cs, scan c cs = read cs)
      (hread : (read cs).1 = .token t → Settled read cs) : Settled (scan c) cs := by
    obtain rfl : scan c = read := funext heq
    exact hread h
  by_cases hlayout : isLayout c = true
  · have heq : scan c cs = _ := if_pos hlayout
    rw [heq] at h
    cases h
  by_cases hname : isNameStart c = true
  · exact hcongr (fun _ => (if_neg hlayout).trans (if_pos hname)) fun _ => settled_name cs
  by_cases hdigit : c.isDigit = true
  · apply hcongr fun _ => (if_neg hlayout).trans ((if_neg hname).trans (if_pos hdigit))
    intro _
    obtain ⟨text, rest, hcs, hlength, hread⟩ := settled_scanNumber (c :: cs)
    cases text with
    | nil => cases scanNumber_ne_zero hdigit cs hlength
    | cons d text =>
      obtain ⟨rfl, rfl⟩ := List.cons.inj hcs
      refine ⟨text, rest, rfl, by dsimp only; rw [hlength]; rfl, fun after hafter => ?_⟩
      dsimp only
      rw [← hread after hafter]
      rfl
  by_cases hquote : c = '\'' ∨ c = '"'
  · apply hcongr fun _ => (if_neg hlayout).trans ((if_neg hname).trans ((if_neg hdigit).trans (if_pos hquote)))
    apply settled_scanString
    rintro rfl
    rcases hquote with hquote | hquote <;> cases hquote
  by_cases hand : c = '&'
  · exact hcongr (fun _ => (if_neg hlayout).trans
      ((if_neg hname).trans ((if_neg hdigit).trans ((if_neg hquote).trans (if_pos hand)))))
      settled_scanChar
  have hmark (cs : List Char) (hslash : c = '/' → cs.head? ≠ some '/' ∧ cs.head? ≠ some '*') :
      scan c cs = scanMark c cs := by
    rw [scan, if_neg hlayout, if_neg hname, if_neg hdigit, if_neg hquote, if_neg hand]
    all_goals
      rintro r rfl rfl
      simp at hslash
  by_cases hslash : c = '/'
  · subst hslash
    have hread : scan '/' cs = (.token (.mark .slash), 0) := by
      by_cases hline : cs.head? = some '/'
      · obtain ⟨r, rfl⟩ := List.head?_eq_some_iff.mp hline
        cases h
      by_cases hblock : cs.head? = some '*'
      · obtain ⟨r, rfl⟩ := List.head?_eq_some_iff.mp hblock
        rw [scan] at h ⊢
        cases hr : commentLength? r <;> simp_all
      · exact hmark cs fun _ => ⟨hline, hblock⟩
    refine ⟨[], cs, rfl, by rw [hread]; rfl, fun after hafter => ?_⟩
    rw [hread, nil_append, hmark after]
    · rfl
    · exact fun _ => ⟨fun heq => (nomatch hafter '/' heq), fun heq => (nomatch hafter '*' heq)⟩
  · exact hcongr (fun cs => hmark cs fun h => absurd h hslash) settled_scanMark

end ActorLang
