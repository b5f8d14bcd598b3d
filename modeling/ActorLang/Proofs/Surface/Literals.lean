import ActorLang.Compile
import ActorLang.Proofs.Integers
import ActorLang.Proofs.Token.Layout

/-!
# Reading literals back

The text of an integer is one token, or a sign and one token.  The token is as wide as the magnitude
needs, and the sign joins the literal that it spells, so the least integer of either type is not
read as one of that type.
-/

namespace ActorLang

open List

/-- The source text is a program of one sentence, the literal. -/
def Program.Spells (source : String) (l : Literal) : Prop :=
  ∃ span, Program.ofSource source = .ok ⟨[.mk span (.lit l)]⟩

variable {n : Int} {m : Nat} {source : String} {t : Token} {l l' : Literal} {a b : Span} {c : Char}

namespace Program

theorem ofTokens_literal (h : Rule.literalOf? t = some l) (a b : Span) :
  ofTokens [⟨t, b⟩] = .ok ⟨[.mk (b.merge b) (.lit l)]⟩ ∧
    ofTokens [⟨.mark .minus, a⟩, ⟨t, b⟩] = .ok ⟨[.mk (a.merge b) (Rule.negation (.mk (b.merge b) (.lit l)))]⟩
  := by
  cases t with
  | mark | ident => cases h
  | word k => cases k <;> cases h <;> exact ⟨rfl, rfl⟩
  | _ => cases h; exact ⟨rfl, rfl⟩

namespace Spells

theorem unique (h : Spells source l) (h' : Spells source l') :
  l = l'
  := by
  obtain ⟨_, h⟩ := h
  obtain ⟨_, h'⟩ := h'
  cases h.symm.trans h'
  rfl

theorem of_token (h : Rule.literalOf? t = some l) (htokens : tokenize source = .ok [⟨t, b⟩]) :
  Spells source l
  := by
  rw [Spells, ofSource, htokens]
  exact ⟨_, congrArg (Except.mapError CompileError.parse) (ofTokens_literal h b b).1⟩

theorem of_negated (h : Rule.literalOf? t = some l) (hnegate : l.negate? = some l')
    (htokens : tokenize source = .ok [⟨.mark .minus, a⟩, ⟨t, b⟩]) :
  Spells source l'
  := by
  have hform : Rule.negation (.mk (b.merge b) (.lit l)) = .lit l' := by
    rw [Rule.negation]
    simp only [Expr.form, hnegate]
  rw [Spells, ofSource, htokens, ← hform]
  exact ⟨_, congrArg (Except.mapError CompileError.parse) (ofTokens_literal h a b).2⟩

end Spells

end Program

/-! ### Magnitudes -/

/-- The digits of a magnitude, with or without the suffix of 64-bit integers. -/
def magnitudeText (long : Bool) (m : Nat) : List Char := Nat.toDigits 10 m ++ if long then ['L'] else []

/-- The token that these digits are. -/
def magnitudeToken? (long : Bool) (m : Nat) : Option Token :=
  if long = false ∧ m < 2 ^ 31 then some (.int32 (.ofNat m))
  else if m < 2 ^ 63 then some (if long then .long (.ofNat m) else .int64 (.ofNat m))
  else none

theorem isDigit_toDigits :
  ∀ c ∈ Nat.toDigits 10 m, c.isDigit = true
  := fun _ => Nat.isDigit_of_mem_toDigits (by decide) (by decide)

theorem scanNumber_magnitude (long : Bool) (m : Nat) :
  scanNumber (magnitudeText long m) = (.ofOption (magnitudeToken? long m), (magnitudeText long m).length)
  := by
  have h32 : fitsInt32 m = true ↔ m < 2 ^ 31 := (@fits_iff m false).trans (by simp)
  have h64 : fitsInt64 m = true ↔ m < 2 ^ 63 := (@fits_iff m true).trans (by simp)
  have hvalue : digitsValue (Nat.toDigits 10 m) = m := Nat.ofDigitChars_ten_toDigits
  have hread : (magnitudeText long m).takeWhile Char.isDigit = Nat.toDigits 10 m :=
    takeWhile_append_stop isDigit_toDigits (by cases long <;> simp)
  rw [scanNumber, hread, magnitudeText]
  cases long <;> simp [fractionPart, numberBefore, exponentPart, startsIn, intToken?, int64OfDigits?, hvalue, h32, h64,
    magnitudeToken?]

theorem scan_digit (h : c.isDigit = true) (cs : List Char) :
  scan c cs = ((scanNumber (c :: cs)).1, (scanNumber (c :: cs)).2 - 1)
  := by
  have hlayout : ¬isLayout c = true := by
    intro hlayout
    rcases isLayout_cases hlayout with rfl | rfl | rfl | rfl | rfl <;> cases h
  have hname : ¬isNameStart c = true := by
    intro hname
    simp only [isNameStart, Char.isAlpha, Char.isUpper, Char.isLower, Char.isDigit, Bool.or_eq_true,
      beq_iff_eq, UInt32.le_iff_toNat_le] at h hname
    rcases hname with hname | rfl
    · simp at h hname
      omega
    · simp at h
  exact (if_neg hlayout).trans ((if_neg hname).trans (if_pos h))

theorem tokensFrom_magnitude (position : Nat) (long : Bool) (m : Nat) :
  tokensFrom position (magnitudeText long m) = (magnitudeToken? long m).elim
    (.error ⟨position, String.ofList (magnitudeText long m)⟩)
    fun t => .ok [⟨t, ⟨position, position + byteLength (magnitudeText long m)⟩⟩]
  := by
  have hnumber := scanNumber_magnitude long m
  have hdigits := @isDigit_toDigits m
  obtain ⟨d, _, heq⟩ := exists_cons_of_ne_nil (@Nat.toDigits_ne_nil m 10)
  rw [magnitudeText, heq, cons_append] at hnumber
  rw [heq] at hdigits
  rw [magnitudeText, heq, cons_append, tokensFrom, scan_digit (hdigits d mem_cons_self), hnumber]
  dsimp only
  rw [length_cons, Nat.add_sub_cancel, take_length, drop_length, tokensFrom]
  cases magnitudeToken? long m <;> rfl

/-! ### Signed integers -/

def integerText (long : Bool) (n : Int) : List Char := (if n < 0 then ['-'] else []) ++ magnitudeText long n.natAbs

/-- The literal that the text of an integer is. -/
def integerLiteral (long : Bool) (n : Int) : Literal :=
  if long = false ∧ n.natAbs < 2 ^ 31 then .int32 (.ofInt n) else .int64 (.ofInt n)

theorem toString_int (n : Int) :
  toString n = String.ofList (integerText false n)
  := by
  rw [Int.toString_eq_repr, Int.repr_eq_if, integerText, magnitudeText]
  split
  case isTrue h =>
    have habs : n.toNat = n.natAbs := by omega
    rw [if_neg (by omega), Nat.repr_eq_ofList_toDigits, habs]
    simp
  case isFalse h =>
    have habs : (-n).toNat = n.natAbs := by omega
    rw [if_pos (by omega), Nat.repr_eq_ofList_toDigits, habs]
    simp

theorem magnitudeToken?_eq_some (h : m < 2 ^ 63) (long : Bool) :
  ∃ t, magnitudeToken? long m = some t ∧ Rule.literalOf? t = some (integerLiteral long m)
  := by
  rw [magnitudeToken?, integerLiteral, Int.natAbs_natCast]
  split
  · exact ⟨_, rfl, congrArg (some <| Literal.int32 ·) Int32.ofInt_eq_ofNat.symm⟩
  · cases long <;> exact ⟨_, rfl, congrArg (some <| Literal.int64 ·) Int64.ofInt_eq_ofNat.symm⟩

theorem negate?_integerLiteral (h : m < 2 ^ 63) (long : Bool) :
  (integerLiteral long m).negate? = some (integerLiteral long (-m))
  := by
  rw [integerLiteral, integerLiteral, Int.natAbs_neg]
  split
  case isTrue hm =>
    have hmin : Int32.ofInt m ≠ Int32.minValue := by
      intro heq
      have hvalue := congrArg Int32.toInt heq
      rw [Int32.toInt_ofInt_of_le (by omega) (by omega)] at hvalue
      simp at hvalue
    rw [Literal.negate?, if_neg hmin, Int32.ofInt_neg]
  case isFalse =>
    have hmin : Int64.ofInt m ≠ Int64.minValue := by
      intro heq
      have hvalue := congrArg Int64.toInt heq
      rw [Int64.toInt_ofInt_of_le (by omega) (by omega)] at hvalue
      simp at hvalue
    rw [Literal.negate?, if_neg hmin, Int64.ofInt_neg]

theorem tokenize_integer (long : Bool) (n : Int) :
  ∃ a b e, tokenize (String.ofList (integerText long n)) = (magnitudeToken? long n.natAbs).elim (.error e) fun t =>
    .ok (if n < 0 then [⟨.mark .minus, a⟩, ⟨t, b⟩] else [⟨t, b⟩])
  := by
  have hminus (rest : List Char) : tokensFrom 0 ('-' :: rest) =
      (tokensFrom 1 rest).map (⟨.mark .minus, ⟨0, 1⟩⟩ :: ·) := @tokensFrom_token '-' [] rest (.mark .minus) rfl 0
  rw [tokenize, String.toList_ofList, integerText]
  refine ⟨⟨0, 1⟩, ?_⟩
  by_cases hn : n < 0
  · simp only [if_pos hn, cons_append, nil_append, hminus, tokensFrom_magnitude]
    refine ⟨⟨1, 1 + byteLength (magnitudeText long n.natAbs)⟩, ⟨1, String.ofList (magnitudeText long n.natAbs)⟩, ?_⟩
    cases magnitudeToken? long n.natAbs <;> rfl
  · simp only [if_neg hn]
    exact ⟨_, _, tokensFrom_magnitude 0 long n.natAbs⟩

theorem spells_integer (h : n.natAbs < 2 ^ 63) (long : Bool) :
  Program.Spells (String.ofList (integerText long n)) (integerLiteral long n)
  := by
  obtain ⟨a, b, e, htokens⟩ := tokenize_integer long n
  obtain ⟨t, ht, hliteral⟩ := magnitudeToken?_eq_some h long
  rw [ht] at htokens
  by_cases hn : n < 0
  · have hvalue : -(n.natAbs : Int) = n := by omega
    have hnegate := negate?_integerLiteral h long
    rw [hvalue] at hnegate
    simp only [if_pos hn] at htokens
    exact .of_negated hliteral hnegate htokens
  · have hvalue : (n.natAbs : Int) = n := by omega
    rw [hvalue] at hliteral
    simp only [if_neg hn] at htokens
    exact .of_token hliteral htokens

theorem ofSource_integer_error (h : 2 ^ 63 ≤ n.natAbs) (long : Bool) :
  ∃ e, Program.ofSource (String.ofList (integerText long n)) = .error (.lex e)
  := by
  obtain ⟨_, _, e, htokens⟩ := tokenize_integer long n
  rw [magnitudeToken?, if_neg (by omega), if_neg (by omega)] at htokens
  rw [Program.ofSource, htokens]
  exact ⟨e, rfl⟩

/-- The decimal text of an integer is the literal of 32 bits if its magnitude fits them, and else the one of 64 bits;
a magnitude that does not fit those cannot be read. -/
theorem ofSource_toString (n : Int) :
  (-2 ^ 31 < n ∧ n < 2 ^ 31 → ∃ k : Int32, k.toInt = n ∧ Program.Spells (toString n) (.int32 k)) ∧
    (¬(-2 ^ 31 < n ∧ n < 2 ^ 31) ∧ -2 ^ 63 < n ∧ n < 2 ^ 63 →
      ∃ k : Int64, k.toInt = n ∧ Program.Spells (toString n) (.int64 k)) ∧
    (¬(-2 ^ 63 < n ∧ n < 2 ^ 63) → ∃ e, Program.ofSource (toString n) = .error (.lex e))
  := by
  rw [toString_int]
  refine ⟨fun h => ?_, fun h => ?_, fun h => ofSource_integer_error (by omega) false⟩
  · refine ⟨.ofInt n, Int32.toInt_ofInt_of_le (by omega) (by omega), ?_⟩
    have hspells := @spells_integer n (by omega) false
    rwa [integerLiteral, if_pos ⟨rfl, by omega⟩] at hspells
  · refine ⟨.ofInt n, Int64.toInt_ofInt_of_le (by omega) (by omega), ?_⟩
    have hspells := @spells_integer n (by omega) false
    rwa [integerLiteral, if_neg (by omega)] at hspells

/-- The least integers of either type whose magnitudes fit it, and one too large. -/
theorem ofSource_toString_negative :
  (∃ k : Int32, k.toInt = -2147483647 ∧ Program.Spells "-2147483647" (.int32 k)) ∧
    (∃ k : Int64, k.toInt = -9223372036854775807 ∧ Program.Spells "-9223372036854775807" (.int64 k)) ∧
    ∃ e, Program.ofSource "9223372036854775808" = .error (.lex e)
  :=
  ⟨(ofSource_toString (-2147483647)).1 (by decide), (ofSource_toString (-9223372036854775807)).2.1 (by decide),
    (ofSource_toString 9223372036854775808).2.2 (by decide)⟩

/-- The least integer of 32 bits is read as one of 64 bits, and the least one of those cannot be read. -/
theorem ofSource_leastIntegers :
  Program.Spells (toString Int32.minValue.toInt) (.int64 (-2147483648)) ∧
    ∃ e, Program.ofSource (toString Int64.minValue.toInt) = .error (.lex e)
  := by
  rw [toString_int, toString_int]
  exact ⟨spells_integer (by decide) false, ofSource_integer_error (by decide) false⟩

/-! ### Canonical texts -/

theorem spells_int32 (k : Int32) :
  Program.Spells (Literal.int32 k).render (.int32 k) ↔ k ≠ Int32.minValue
  := by
  have hrender : (Literal.int32 k).render = String.ofList (integerText false k.toInt) := toString_int k.toInt
  have hle := k.le_toInt
  have hlt := k.toInt_lt
  have hspells := @spells_integer k.toInt (by omega) false
  rw [hrender]
  constructor
  · rintro h rfl
    cases h.unique hspells
  · intro hk
    have hmin : k.toInt ≠ -2 ^ 31 := fun heq => hk (Int32.toInt_inj.mp heq)
    rwa [integerLiteral, if_pos ⟨rfl, by omega⟩, Int32.ofInt_toInt] at hspells

theorem spells_int64 (k : Int64) :
  Program.Spells (Literal.int64 k).render (.int64 k) ↔ k ≠ Int64.minValue
  := by
  have hrender : (Literal.int64 k).render = String.ofList (integerText true k.toInt) := by
    rw [Literal.render, Literal.renderWith, toString_int]
    simp [integerText, magnitudeText, String.append_assoc]
  rw [hrender]
  constructor
  · rintro ⟨_, h⟩ rfl
    obtain ⟨e, he⟩ := @ofSource_integer_error Int64.minValue.toInt (by decide) true
    cases h.symm.trans he
  · intro hk
    have hle := k.le_toInt
    have hlt := k.toInt_lt
    have hmin : k.toInt ≠ -2 ^ 63 := fun heq => hk (Int64.toInt_inj.mp heq)
    have hspells := @spells_integer k.toInt (by omega) true
    rwa [integerLiteral, Int64.ofInt_toInt] at hspells

theorem scanChar_escapeChar (hc : isSpace c = true → c ∈ ['\n', '\r', '\t']) (hand : c ≠ '&') :
  scanChar (Literal.escapeChar c) = (.token (.char c), (Literal.escapeChar c).length)
  := by
  fun_cases Literal.escapeChar c with
  | case1 | case2 | case3 | case4 => rfl
  | case5 c _ _ _ _ hzero =>
    have heq : c = Char.ofNat 0 := by rw [← hzero, Char.ofNat_toNat]
    rw [heq]
    rfl
  | case6 =>
    rw [scanChar.eq_def]
    simp_all

theorem scanChar_blank (h : isSpace c = true) (hc : c ∉ ['\n', '\r', '\t']) :
  ∃ i, scanChar (Literal.escapeChar c) = (.bad, i)
  := by
  fun_cases Literal.escapeChar c with
  | case1 | case2 | case3 => simp at hc
  | case4 => simp [isSpace, spaceRanges] at h
  | case5 c _ _ _ _ hzero => simp [isSpace, spaceRanges, hzero] at h
  | case6 c =>
    have hand : c ≠ '&' := by
      rintro rfl
      simp [isSpace, spaceRanges] at h
    rw [scanChar.eq_def]
    simp_all

theorem spells_char (c : Char) :
  Program.Spells (Literal.char c).render (.char c) ↔ c ≠ '&' ∧ (isSpace c = true → c ∈ ['\n', '\r', '\t'])
  := by
  have hrender : (Literal.char c).render = String.ofList ('&' :: Literal.escapeChar c) := rfl
  rw [hrender]
  constructor
  · rintro ⟨_, h⟩
    refine ⟨?_, fun hspace => by_contra fun hc => ?_⟩
    · rintro rfl
      rw [Program.ofSource, @tokenize_alone '&' _ (.mark .andAnd) rfl] at h
      cases h
    · obtain ⟨i, hscan⟩ := scanChar_blank hspace hc
      have hbad : scan '&' (Literal.escapeChar c) = (.bad, i) := hscan
      rw [Program.ofSource, tokenize, String.toList_ofList, tokensFrom, hbad] at h
      cases h
  · rintro ⟨hand, hc⟩
    have hscan : scan '&' (Literal.escapeChar c ++ []) = (.token (.char c), (Literal.escapeChar c).length) := by
      rw [append_nil]
      exact scanChar_escapeChar hc hand
    exact .of_token rfl (tokenize_alone hscan)

/-- Of the truth values, integers, characters and constants, the canonical text of one is a program of just that
literal, except for the least integers, the mark of characters and the blanks without an escape. -/
theorem spells_render (b : Bool) (k : Int32) (n : Int64) (c : Char) :
  Program.Spells (Literal.bool b).render (.bool b) ∧
    Program.Spells Literal.null.render .null ∧ Program.Spells Literal.eof.render .eof ∧
    (Program.Spells (Literal.int32 k).render (.int32 k) ↔ k ≠ Int32.minValue) ∧
    (Program.Spells (Literal.int64 n).render (.int64 n) ↔ n ≠ Int64.minValue) ∧
    (Program.Spells (Literal.char c).render (.char c) ↔ c ≠ '&' ∧ (isSpace c = true → c ∈ ['\n', '\r', '\t']))
  := by
  have hword {t : Token} {l : Literal} {c : Char} {cs : List Char}
      (hscan : scan c (cs ++ []) = (.token t, cs.length)) (h : Rule.literalOf? t = some l) :
      Program.Spells (String.ofList (c :: cs)) l := .of_token h (tokenize_alone hscan)
  refine ⟨?_, hword rfl rfl, hword rfl rfl, spells_int32 k, spells_int64 n, spells_char c⟩
  cases b <;> exact hword rfl rfl

/-- A source text that is the mark of characters as a literal, which cannot be read back. -/
theorem spells_render_ampersand :
  Program.Spells "&\\&" (.char '&') ∧ ¬Program.Spells (Literal.char '&').render (.char '&')
  := by
  constructor
  · exact .of_token rfl (@tokenize_alone '&' ['\\', '&'] _ rfl)
  · rw [spells_char]
    simp

end ActorLang
