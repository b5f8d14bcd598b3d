import ActorLang.Proofs.Token.Stability

/-!
# Tokens and what stands between them

A text is tokens with blanks and comments between them.  `tokenize` finds every byte of it, and what
stands between two tokens does not matter.
-/

namespace ActorLang

open List

variable {final : Bool} {position n : Nat} {c : Char}
  {cs gap text part rest after run text' : List Char} {t : Token} {l : Lexeme}
  {lexemes : List Lexeme}

theorem byteLength_append (a b : List Char) :
  byteLength (a ++ b) = byteLength a + byteLength b
  := by
  induction a with
  | nil => simp [byteLength]
  | cons c a ih => simp [byteLength, ih, Nat.add_assoc]

/-! ### Blanks and comments -/

/-- Blanks and whole comments.  A line comment reaches up to a line break, and if `final` holds it
may be the last one and end with the text; a block comment ends at the first mark that closes it. -/
inductive Filler (final : Bool) : List Char → Prop where
  | nil : Filler final []
  | blank {c : Char} {cs : List Char} (hc : isLayout c = true) (h : Filler final cs) :
    Filler final (c :: cs)
  | line {body cs} (hbody : '\n' ∉ body) (hnext : cs.head? = some '\n' ∨ cs = [] ∧ final = true)
      (h : Filler final cs) : Filler final ('/' :: '/' :: (body ++ cs))
  | block {body cs} (hbody : ¬['*', '/'] <:+: body ++ ['*']) (h : Filler final cs) :
      Filler final ('/' :: '*' :: (body ++ '*' :: '/' :: cs))

theorem Filler.blanks (hrun : ∀ c ∈ run, isLayout c = true) (h : Filler final cs) :
  Filler final (run ++ cs)
  := by
  induction run with
  | nil => exact h
  | cons c _ ih =>
    rw [forall_mem_cons] at hrun
    exact .blank hrun.1 (ih hrun.2)

theorem commentLength?_eq_some_iff :
  commentLength? cs = some n ↔ ∃ body rest, cs = body ++ '*' :: '/' :: rest ∧
    n = body.length + 2 ∧ ¬['*', '/'] <:+: body ++ ['*']
  := by
  fun_induction commentLength? cs generalizing n with
  | case1 rest =>
    constructor
    · rintro ⟨⟩
      exact ⟨[], rest, rfl, rfl, by decide⟩
    · rintro ⟨body, _, heq, rfl, hbody⟩
      rcases body with - | ⟨c, - | ⟨d, body⟩⟩
      · rfl
      · simp at heq
      · cases heq
        exact absurd ⟨[], body ++ ['*'], rfl⟩ hbody
  | case2 c rest hopen ih =>
    rw [Option.map_eq_some_iff]
    constructor
    · rintro ⟨m, hm, rfl⟩
      obtain ⟨body, rest, rfl, rfl, hbody⟩ := ih.mp hm
      refine ⟨c :: body, rest, rfl, rfl, ?_⟩
      rw [cons_append, infix_cons_iff, not_or]
      refine ⟨?_, hbody⟩
      intro hprefix
      cases body with
      | nil => simp at hprefix
      | cons =>
        simp only [cons_append, cons_prefix_cons] at hprefix
        obtain ⟨rfl, rfl, -⟩ := hprefix
        exact hopen _ rfl rfl
    · rintro ⟨body, rest', heq, rfl, hbody⟩
      cases body with
      | nil =>
        cases heq
        cases hopen _ rfl rfl
      | cons d body =>
        cases heq
        rw [cons_append, infix_cons_iff, not_or] at hbody
        exact ⟨_, ih.mpr ⟨body, rest', rfl, rfl, hbody.2⟩, rfl⟩
  | case3 => simp

theorem ofOption_ne_trivia (t : Option Token) :
  Scanned.ofOption t ≠ .trivia
  := by
  cases t <;> nofun

/-- Blanks, a line comment or a block comment. -/
theorem scan_trivia (h : scan c cs = (.trivia, n)) :
  (isLayout c = true ∧ n = (cs.takeWhile isLayout).length) ∨
  (∃ body rest, c :: cs = '/' :: '/' :: (body ++ rest) ∧ n = body.length + 1 ∧ '\n' ∉ body ∧
    (rest = [] ∨ rest.head? = some '\n')) ∨
  (∃ body rest, c :: cs = '/' :: '*' :: (body ++ '*' :: '/' :: rest) ∧ n = body.length + 3 ∧
    ¬['*', '/'] <:+: body ++ ['*'])
  := by
  unfold scan at h
  split at h
  case isTrue hc => exact .inl ⟨hc, (Prod.mk.inj h).2.symm⟩
  split at h
  · cases h
  split at h
  · have hne : (scanNumber (c :: cs)).1 ≠ .trivia := by
      unfold scanNumber numberBefore
      dsimp only
      repeat' split
      all_goals exact ofOption_ne_trivia _
    exact absurd (Prod.mk.inj h).1 hne
  split at h
  · unfold scanString at h
    split at h <;> cases h
  split at h
  · unfold scanChar at h
    repeat' split at h
    all_goals cases h
  split at h
  case h_1 rest _ _ _ _ _ =>
    cases h
    refine .inr (.inl ⟨rest.takeWhile (· ≠ '\n'), rest.dropWhile (· ≠ '\n'), ?_, rfl, ?_, ?_⟩)
    · rw [takeWhile_append_dropWhile]
    · intro hmem
      simpa using mem_takeWhile_imp hmem
    · have := List.head?_dropWhile_not (· ≠ '\n') rest
      cases hrest : rest.dropWhile (· ≠ '\n') with
      | nil => exact .inl rfl
      | cons => simp_all
  case h_2 rest _ _ _ _ _ =>
    cases hcomment : commentLength? rest with
    | none => simp [hcomment] at h
    | some =>
      rw [hcomment] at h
      cases h
      obtain ⟨body, rest, rfl, rfl, hbody⟩ := commentLength?_eq_some_iff.mp hcomment
      exact .inr (.inr ⟨body, rest, rfl, rfl, hbody⟩)
  · unfold scanMark at h
    dsimp only at h
    repeat' split at h
    all_goals cases h

/-- Nothing follows, if that is allowed, or something that is no blank. -/
def Stops (final : Bool) (after : List Char) : Prop :=
  after = [] ∧ final = true ∨ ∃ d rest, after = d :: rest ∧ isLayout d = false

theorem Filler.scan (hgap : Filler final gap) (h : ActorLang.scan c cs = (.trivia, n))
    (hcs : cs.drop n = gap ++ after) (hafter : Stops final after) :
  Filler final (c :: cs.take n ++ gap)
  := by
  rcases scan_trivia h with ⟨hc, rfl⟩ | ⟨body, rest, heq, rfl, hbody, hrest⟩ |
    ⟨body, rest, heq, rfl, hbody⟩
  · rw [← prefix_iff_eq_take.mp ( takeWhile_prefix isLayout)]
    exact .blank hc (hgap.blanks fun _ => mem_takeWhile_imp)
  · cases heq
    have hrest' : rest = gap ++ after := by simpa using hcs
    have htake : ('/' :: (body ++ rest)).take (body.length + 1) = '/' :: body := by simp
    rw [htake]
    refine .line hbody ?_ hgap
    rcases hafter with ⟨rfl, hfinal⟩ | ⟨d, r, rfl, hd⟩
    · rw [append_nil] at hrest'
      subst hrest'
      exact hrest.elim (fun hnil => .inr ⟨hnil, hfinal⟩) .inl
    · cases gap with
      | nil =>
        subst hrest'
        rcases hrest with hrest | hrest
        · cases hrest
        · cases hrest
          cases hd
      | cons =>
        subst hrest'
        simpa using hrest
  · cases heq
    have htake : ('*' :: (body ++ '*' :: '/' :: rest)).take (body.length + 3) = '*' :: (body ++ ['*', '/']) := by
      rw [append_cons, append_cons, take_succ_cons, take_left' (by simp)]
      simp
    rw [htake]
    simpa using Filler.block hbody hgap

/-- The text from a byte offset on is tokens with filler before, between and after them.  Every token
is a part of the text that is not empty and that, read alone, is that token and no more; its span
is where the part stands. -/
inductive Covers (final : Bool) : Nat → List Char → List Lexeme → Prop where
  | nil {position : Nat} {gap : List Char} (hgap : Filler final gap) : Covers final position gap []
  | cons {position start stop gap cs rest c t lexemes} (hgap : Filler false gap)
      (hread : final = true → ActorLang.scan c (cs ++ rest) = (.token t, cs.length))
      (hc : isLayout c = false)
      (halone : tokenize (String.ofList (c :: cs)) = .ok [⟨t, ⟨0, byteLength (c :: cs)⟩⟩])
      (hstart : start = position + byteLength gap) (hstop : stop = start + byteLength (c :: cs))
      (hrest : Covers final stop rest lexemes) :
      Covers final position (gap ++ c :: (cs ++ rest)) (⟨t, ⟨start, stop⟩⟩ :: lexemes)

theorem not_isLayout_of_scan (h : (scan c cs).1 ≠ .trivia) :
  isLayout c = false
  := by
  by_contra hc
  have heq : scan c cs = _ := if_pos (Bool.of_not_eq_false hc)
  rw [heq] at h
  exact h rfl

theorem Covers.scan (h : ActorLang.scan c cs = (.trivia, n))
    (hcs : cs.drop n = text ++ after) (hafter : Stops final after)
    (hrest : Covers final (position + byteLength (c :: cs.take n)) text lexemes) :
  Covers final position (c :: cs.take n ++ text) lexemes
  := by
  cases hrest with
  | nil hgap => exact .nil (hgap.scan h hcs hafter)
  | cons hgap hread hc halone hstart hstop hrest =>
    rw [← append_assoc]
    refine .cons (hgap.scan h (hcs.trans (append_assoc ..)) (.inr ⟨_, _, rfl, hc⟩)) hread hc halone ?_ hstop hrest
    rw [hstart, byteLength_append, Nat.add_assoc]

theorem tokensFrom_trivia (h : scan c (part ++ rest) = (.trivia, part.length)) (position : Nat) :
  tokensFrom position (c :: (part ++ rest)) = tokensFrom (position + byteLength (c :: part)) rest
  := by
  rw [tokensFrom, h]
  simp

theorem tokensFrom_token (h : scan c (part ++ rest) = (.token t, part.length)) (position : Nat) :
  tokensFrom position (c :: (part ++ rest)) = (tokensFrom (position + byteLength (c :: part)) rest).map
      (⟨t, ⟨position, position + byteLength (c :: part)⟩⟩ :: ·)
  := by
  rw [tokensFrom, h]
  simp

theorem tokenize_alone (h : scan c (text ++ []) = (.token t, text.length)) :
  tokenize (String.ofList (c :: text)) = .ok [⟨t, ⟨0, byteLength (c :: text)⟩⟩]
  := by
  rw [tokenize, String.toList_ofList, ← append_nil text, tokensFrom_token h, tokensFrom, Nat.zero_add, append_nil]
  rfl

theorem covers_tokensFrom (position : Nat) (cs : List Char) :
  ∃ final before after lexemes, cs = before ++ after ∧ Stops final after ∧ Covers final position before lexemes ∧
    (tokensFrom position cs = .ok lexemes ∧ after = [] ∧ final = true ∨
      ∃ snippet rest, snippet ≠ [] ∧ after = snippet ++ rest ∧ final = false ∧
        tokensFrom position cs = .error ⟨position + byteLength before, String.ofList snippet⟩)
  := by
  fun_induction tokensFrom position cs with
  | case1 => exact ⟨true, [], [], [], rfl, .inl ⟨rfl, rfl⟩, .nil .nil, .inl ⟨rfl, rfl, rfl⟩⟩
  | case2 _ c cs n text h =>
    have hc : isLayout c = false := not_isLayout_of_scan (by rw [h]; nofun)
    refine ⟨false, [], c :: cs, [], rfl, .inr ⟨c, cs, rfl, hc⟩, .nil .nil, .inr ⟨text, cs.drop n, ?_⟩⟩
    simp [text, byteLength]
  | case3 _ c cs n text _ h ih =>
    obtain ⟨final, before, after, lexemes, hcs, hafter, hcovers, _⟩ := ih
    refine ⟨final, text ++ before, after, lexemes, ?_, hafter, hcovers.scan h hcs hafter, ?_⟩
    · rw [append_assoc, ← hcs, cons_append, take_append_drop]
    · rwa [byteLength_append, ← Nat.add_assoc]
  | case4 position c cs n text next t h ih =>
    obtain ⟨final, before, after, lexemes, hcs, hafter, hcovers, hresult⟩ := ih
    obtain ⟨part, rest, rfl, hlength, hread⟩ := settled_scan (by rw [h])
    rw [h] at hlength hread
    subst hlength
    have hnext : next = position + byteLength (c :: part) := by simp [next, text]
    have halone := tokenize_alone (hread [] (by simp [Ends]))
    have hc : isLayout c = false := not_isLayout_of_scan (by rw [h]; nofun)
    obtain rfl : rest = before ++ after := by simpa using hcs
    refine ⟨final, [] ++ c :: (part ++ before), after, ⟨t, ⟨position, next⟩⟩ :: lexemes, by simp, hafter,
      .cons .nil ?_ hc halone rfl hnext hcovers, ?_⟩
    · rintro rfl
      rcases hresult with ⟨-, rfl, -⟩ | ⟨_, _, -, -, hfinal, -⟩
      · rw [← h, append_nil]
      · cases hfinal
    · rcases hresult with ⟨hok, hdone⟩ | ⟨snippet, rest, hsnippet, hafter, hfinal, herror⟩
      · exact .inl ⟨by rw [hok]; rfl, hdone⟩
      · refine .inr ⟨snippet, rest, hsnippet, hafter, hfinal, ?_⟩
        rw [herror, hnext, nil_append, ← cons_append, byteLength_append, Nat.add_assoc]
        rfl

/-- The spans of the tokens of a text are not empty, one after the other, inside the text and from
character to character. -/
def Ordered (text : List Char) (lexemes : List Lexeme) (position : Nat) : Prop :=
  lexemes.Pairwise (fun l l' => l.span.stop ≤ l'.span.start) ∧
  ∀ l ∈ lexemes, ∃ before part after, text = before ++ part ++ after ∧ part ≠ [] ∧
    l.span = ⟨position + byteLength before, position + byteLength (before ++ part)⟩

theorem Covers.ordered (h : Covers final position text lexemes) :
  Ordered text lexemes position
  := by
  induction h with
  | nil => exact ⟨.nil, nofun⟩
  | @cons position _ stop gap cs rest c t _ _ _ _ _ hstart hstop _ ih =>
    obtain ⟨hpairwise, hspans⟩ := ih
    rw [Ordered, pairwise_cons, forall_mem_cons]
    have hhere : stop = position + byteLength (gap ++ c :: cs) := by
      rw [hstop, hstart, byteLength_append, Nat.add_assoc]
    refine ⟨⟨fun l hl => ?_, hpairwise⟩,
      ⟨gap, c :: cs, rest, by simp, cons_ne_nil _ _, by rw [hstart, hhere]⟩, fun l hl => ?_⟩
    all_goals obtain ⟨before, part, after, rfl, hpart, hspan⟩ := hspans l hl
    · rw [hspan]
      exact Nat.le_add_right _ _
    · refine ⟨gap ++ c :: cs ++ before, part, after, by simp, hpart, ?_⟩
      rw [hspan, hhere]
      simp only [byteLength_append, Nat.add_assoc]

/-- What a reading says of a text accounts for all its bytes, or for all before the error. -/
def Accounted (text : List Char) : Except LexError (List Lexeme) → Prop
  | .ok lexemes => Ordered text lexemes 0 ∧ Covers true 0 text lexemes
  | .error e => ∃ before after lexemes, text = before ++ (e.snippet.toList ++ after) ∧
    e.position = byteLength before ∧ e.snippet ≠ "" ∧ Ordered before lexemes 0 ∧
    Covers false 0 before lexemes

theorem covers_of_tokensFrom (h : tokensFrom position cs = .ok lexemes) :
  Covers true position cs lexemes
  := by
  obtain ⟨_, _, _, _, rfl, -, _, hresult⟩ := covers_tokensFrom position cs
  rcases hresult with ⟨hok, rfl, rfl⟩ | ⟨_, _, -, -, -, herror⟩
  · cases h.symm.trans hok
    rwa [append_nil]
  · cases h.symm.trans herror

theorem accounted_tokenize (source : String) :
  Accounted source.toList (tokenize source)
  := by
  obtain ⟨final, before, after, lexemes, hcs, -, hcovers, hresult⟩ :=
    covers_tokensFrom 0 source.toList
  rw [tokenize]
  rcases hresult with ⟨hok, -, -⟩ | ⟨_, rest, hsnippet, rfl, rfl, herror⟩
  · have hcovers := covers_of_tokensFrom hok
    rw [hok]
    exact ⟨hcovers.ordered, hcovers⟩
  · rw [herror, Nat.zero_add]
    refine ⟨before, rest, lexemes, ?_, rfl, ?_, hcovers.ordered, hcovers⟩
    · rw [String.toList_ofList, hcs]
    · simpa using hsnippet

/-! ### Other layouts -/

/-- Blanks and comments that start with a blank. -/
def Spacing (gap : List Char) : Prop := Filler false gap ∧ ∃ c ∈ gap.head?, isLayout c = true

theorem tokensFrom_blank (hc : isLayout c = true) (cs : List Char) (position : Nat) :
  tokensFrom position (c :: cs) = tokensFrom (position + byteLength [c]) cs
  := by
  have hscan {c : Char} (hc : isLayout c = true) (cs : List Char) :
      scan c (cs.takeWhile isLayout ++ cs.dropWhile isLayout) = (.trivia, (cs.takeWhile isLayout).length) := by
    rw [takeWhile_append_dropWhile]
    exact if_pos hc
  rw [← @takeWhile_append_dropWhile _ isLayout cs, tokensFrom_trivia (hscan hc cs)]
  cases cs with
  | nil => rfl
  | cons d cs =>
    cases hd : isLayout d with
    | false => simp [hd]
    | true =>
      rw [takeWhile_cons_of_pos hd, dropWhile_cons_of_pos hd, cons_append,
        tokensFrom_trivia (hscan hd cs), Nat.add_assoc]
      rfl

theorem tokensFrom_filler (h : Filler final gap) (hrest : final = true → rest = []) (position : Nat) :
  tokensFrom position (gap ++ rest) = tokensFrom (position + byteLength gap) rest
  := by
  induction h generalizing position with
  | nil => rfl
  | @blank c cs hc h ih =>
    rw [cons_append, tokensFrom_blank hc, ih, Nat.add_assoc]
    rfl
  | @line body cs hbody hnext h ih =>
    have hscan : scan '/' ('/' :: body ++ (cs ++ rest)) = (.trivia, ('/' :: body).length) := by
      have hline : (body ++ (cs ++ rest)).takeWhile (· ≠ '\n') = body := by
        apply takeWhile_append_stop
        · rintro c hc
          rw [decide_eq_true_eq]
          rintro rfl
          exact hbody hc
        · rcases hnext with hnext | ⟨rfl, hfinal⟩
          · rw [List.head?_append, hnext]
            rintro c ⟨⟩
            rfl
          · rw [hrest hfinal]
            nofun
      have heq (cs : List Char) :
          scan '/' ('/' :: cs) = (.trivia, (cs.takeWhile (· ≠ '\n')).length + 1) := rfl
      rw [cons_append, heq, hline]
      rfl
    have heq : '/' :: '/' :: (body ++ cs) ++ rest = '/' :: ('/' :: body ++ (cs ++ rest)) := by simp
    rw [heq, tokensFrom_trivia hscan, ih, Nat.add_assoc, ← byteLength_append]
    rfl
  | @block body cs hbody h ih =>
    have hscan : scan '/' ('*' :: (body ++ ['*', '/']) ++ (cs ++ rest)) =
        (.trivia, ('*' :: (body ++ ['*', '/'])).length) := by
      have hclose := commentLength?_eq_some_iff.mpr
        ⟨body, cs ++ rest, append_assoc body ['*', '/'] (cs ++ rest), rfl, hbody⟩
      rw [cons_append, scan, hclose, length_cons, length_append]
      rfl
    have heq : '/' :: '*' :: (body ++ '*' :: '/' :: cs) ++ rest =
        '/' :: ('*' :: (body ++ ['*', '/']) ++ (cs ++ rest)) := by simp
    rw [heq, tokensFrom_trivia hscan, ih, Nat.add_assoc, ← byteLength_append]
    simp

theorem append_inj_of_byteLength {a b c d : List Char} (h : a ++ b = c ++ d) (hlength : byteLength a = byteLength c) :
  a = c ∧ b = d
  := by
  have hnil {m : List Char} (hm : byteLength m = 0) : m = [] := by
    cases m with
    | nil => rfl
    | cons x =>
      have := x.utf8Size_pos
      rw [byteLength] at hm
      omega
  rcases append_eq_append_iff.mp h with ⟨m, rfl, rfl⟩ | ⟨m, rfl, rfl⟩
  all_goals
    rw [byteLength_append] at hlength
    obtain rfl := hnil (m := m) (by omega)
    simp

theorem scan_before (h : scan c (part ++ rest) = (.token t, part.length)) (hafter : Ends after) :
  scan c (part ++ after) = (.token t, part.length)
  := by
  obtain ⟨_, _, heq, hlength, hread⟩ := settled_scan (by rw [h])
  rw [h] at hlength hread
  obtain ⟨rfl, -⟩ := append_inj heq hlength
  exact hread after hafter

theorem Covers.first (h : Covers final position (gap ++ rest) (l :: lexemes))
    (hl : l.span.start = position + byteLength gap) :
  Filler false gap ∧ Covers final l.span.start rest (l :: lexemes) ∧
  ∃ c cs rest', rest = c :: (cs ++ rest') ∧ l.span.stop = l.span.start + byteLength (c :: cs) ∧
    (final = true → ActorLang.scan c (cs ++ rest') = (.token l.token, cs.length)) ∧
    Covers final l.span.stop rest' lexemes
  := by
  generalize htext : gap ++ rest = text at h
  cases h with
  | cons hgap hread hc halone hstart hstop hrest =>
    obtain ⟨rfl, rfl⟩ := append_inj_of_byteLength htext (Nat.add_left_cancel (hl.symm.trans hstart))
    exact ⟨hgap, .cons .nil hread hc halone rfl hstop hrest, _, _, _, rfl, hstop, hread, hrest⟩

/-- The text from the first of the tokens on, with other blanks and comments, the first of which is a
blank, between any two tokens. -/
inductive Relaid : Nat → List Char → List Lexeme → List Char → Prop where
  | last {position : Nat} {text : List Char} {l : Lexeme} : Relaid position text [l] text
  | next {position part gap gap' rest rest' l next lexemes}
      (hspan : l.span = ⟨position, position + byteLength part⟩)
      (hnext : next.span.start = l.span.stop + byteLength gap) (hgap : Spacing gap')
      (h : Relaid next.span.start rest (next :: lexemes) rest') :
      Relaid position (part ++ (gap ++ rest)) (l :: next :: lexemes) (part ++ (gap' ++ rest'))

theorem Relaid.tokens (h : Relaid position text lexemes text') (hcovers : Covers true position text lexemes)
    (hstart : ∀ l ∈ lexemes.head?, l.span.start = position) (start : Nat) :
  ∃ lexemes', tokensFrom start text' = .ok lexemes' ∧ lexemes'.map Lexeme.token = lexemes.map Lexeme.token
  := by
  induction h generalizing start with
  | @last _ _ l =>
    obtain ⟨-, -, c, cs, rest, rfl, -, hread, ⟨hgap⟩⟩ :=
      @Covers.first _ _ [] _ _ _ hcovers (hstart l rfl)
    rw [tokensFrom_token (hread rfl), ← append_nil rest, tokensFrom_filler hgap fun _ => rfl, tokensFrom]
    exact ⟨_, rfl, rfl⟩
  | @next _ part gap gap' rest rest' l _ _ hspan hnext hgap h ih =>
    obtain ⟨-, -, c, cs, more, heq, hstop, hread, hmore⟩ :=
      @Covers.first _ _ [] _ _ _ hcovers (hstart l rfl)
    obtain ⟨rfl, rfl⟩ : part = c :: cs ∧ gap ++ rest = more := by
      apply append_inj_of_byteLength heq
      rw [hspan] at hstop
      exact Nat.add_left_cancel hstop
    obtain ⟨hfiller, b, hb, hblank⟩ := hgap
    have hends : Ends (gap' ++ rest') := by
      obtain ⟨_, rfl⟩ := List.head?_eq_some_iff.mp hb
      rintro d ⟨⟩
      exact hblank
    have hscan := scan_before (hread rfl) hends
    obtain ⟨_, hlexemes, htokens⟩ := ih (hmore.first hnext).2.1 (fun _ h => by cases h; rfl)
      (start + byteLength (c :: cs) + byteLength gap')
    rw [cons_append, tokensFrom_token hscan, tokensFrom_filler hfiller (by simp), hlexemes]
    exact ⟨_, rfl, congrArg (_ :: ·) htokens⟩

/-- What stands between two tokens does not matter: with other blanks and comments between them, the
same tokens are read. -/
theorem tokenize_relaid {lead text text' : List Char} {l : Lexeme} {lexemes : List Lexeme}
    (h : tokenize (String.ofList (lead ++ text)) = .ok (l :: lexemes))
    (hlead : l.span.start = byteLength lead) (hrelaid : Relaid l.span.start text (l :: lexemes) text') :
  ∃ lexemes', tokenize (String.ofList (lead ++ text')) = .ok lexemes' ∧
    lexemes'.map Lexeme.token = (l :: lexemes).map Lexeme.token
  := by
  rw [tokenize, String.toList_ofList] at h
  obtain ⟨hfiller, hcovers, -⟩ :=
    (covers_of_tokensFrom h).first (by rw [hlead, Nat.zero_add])
  rw [tokenize, String.toList_ofList, tokensFrom_filler hfiller nofun]
  exact hrelaid.tokens hcovers (fun _ h => by cases h; rfl) _

/-- A sum written with nothing between its tokens, and with a blank and a comment. -/
theorem tokenize_relaid_sum :
  ∃ lexemes, tokenize "x+1" = .ok lexemes ∧ lexemes.length = 3 ∧
    ∃ lexemes', tokenize "x +\n/**/1" = .ok lexemes' ∧
      lexemes'.map Lexeme.token = lexemes.map Lexeme.token
  := by
  have h : tokenize "x+1" =
      .ok [⟨.ident "x", ⟨0, 1⟩⟩, ⟨.mark .plus, ⟨1, 2⟩⟩, ⟨.int32 1, ⟨2, 3⟩⟩] := by cbv
  have hgap : Spacing ['\n', '/', '*', '*', '/'] :=
    ⟨.blank rfl (@Filler.block _ [] [] (by decide) .nil), '\n', rfl, rfl⟩
  refine ⟨_, h, rfl, @tokenize_relaid [] _ _ _ _ h rfl ?_⟩
  have hblank : Spacing [' '] := ⟨.blank rfl .nil, ' ', rfl, rfl⟩
  refine @Relaid.next 0 ['x'] [] _ ['+', '1'] _ _ _ _ rfl rfl hblank ?_
  exact @Relaid.next 1 ['+'] [] _ ['1'] _ _ _ _ rfl rfl hgap .last

end ActorLang
