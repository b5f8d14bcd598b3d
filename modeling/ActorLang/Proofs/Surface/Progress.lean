import ActorLang.Proofs.Surface.Proper
import Mathlib.Logic.Function.Iterate

/-!
# Readings make progress

A rule that reads a construct moves strictly forward (`Production`), so the bounds on nesting and
repetition never end a reading (`Repetition`).  An error depends only on the tokens up to the one
where it is found.
-/

namespace ActorLang

open List

namespace Rule

variable {α : Type} {R : Readings} {k n : Nat} {P : α → Prop}

/-- The rule reads a construct, where at most `n` tokens are left. -/
inductive Production (n : Nat) : {α : Type} → Rule α → Prop where
  | identifier : Production n identifier
  | params : Production n params
  | pattern : Production n pattern
  | innerPattern : Production n (patternAt n)
  | fieldPattern : Production n (fieldPattern (patternAt n))
  | recordPattern (start : Span) (label : Option Pattern) :
      Production n (recordPattern (patternAt (n - 1)) start label)
  | tuplePattern (start : Span) (label : Option Pattern) :
      Production n (tuplePattern (patternAt (n - 1)) start label)
  | expr : Production n (exprAt n)
  | binary (level : Nat) {operand} (h : Production n operand) :
      Production n (binaryBelow operand level)
  | suffixed : Production n (suffixed (exprAt (n - 1)))
  | primary : Production n (primary (exprAt (n - 1)))
  | arguments : Production n (arguments (exprAt (n - 1)))
  | field : Production n (field (exprAt n))
  | record (start : Span) (label : Option Expr) : Production n (record (exprAt (n - 1)) start label)
  | tuple (start : Span) (label : Option Expr) : Production n (tuple (exprAt (n - 1)) start label)
  | declaration : Production n (declaration (exprAt n))
  | sentence : Production n (sentence (exprAt n))
  | branch : Production n (branch (exprAt n))
  | clause (before : Keyword) : Production n (clause (exprAt n) before)
  | conditional (start : Span) : Production n (conditional (exprAt n) start)
  | alternatives (start : Span) : Production n (alternatives (exprAt n) start)
  | whileLoop (start : Span) : Production n (whileLoop (exprAt n) start)
  | forLoop (start : Span) : Production n (forLoop (exprAt n) start)
  | attempt (start : Span) : Production n (attempt (exprAt n) start)
  | procedure (start : Span) (form : Option String → List String → List Expr → Form) :
      Production n (procedure (exprAt n) start form)
  | handler : Production n (handler (exprAt n))
  | actor (start : Span) : Production n (actor (exprAt n) start)

/-- The rule has a bound on its nesting or its rounds, where at most `n` tokens are left. -/
inductive Repetition (n : Nat) : {α : Type} → (Nat → Rule α) → Prop where
  | program : Repetition n programAt
  | expr : Repetition n exprAt
  | pattern : Repetition n patternAt
  | separated {α : Type} {item : Rule α} (close : Mark) (first : Bool) (h : Production n item) :
      Repetition n fun fuel => separated close item fuel first
  | introduced {α : Type} {item : Rule α} (w : Keyword) (h : Production n item) :
      Repetition n (introduced w item)
  | patternItems {α : Type} {item : Rule α} (close : Mark) (first : Bool) (h : Production n item) :
      Repetition n fun fuel => patternItems close item fuel first
  | sentences {sentence} (h : Production n sentence) : Repetition n (sentences sentence)
  | declarations : Repetition n (declarations (exprAt n))
  | operators {operand} (level : Nat) (start : Span) (left : Expr) (h : Production n operand) :
      Repetition n fun fuel => operators level operand start fuel left
  | unary {operand} (h : Production n operand) : Repetition n (unary operand)
  | suffixes (start : Span) (e : Expr) : Repetition n fun fuel => suffixes (exprAt n) start fuel e
  | actorItems : Repetition n (actorItems (exprAt n))

theorem ReadsIf.unspelled {i : Nat} {x : Bool → Rule α} (hR : ¬R.spelled) (h : ∃ P, Reads R k i P x) :
  Reads R k i P x
  := by
  obtain ⟨_, h⟩ := h
  exact h.imp (Nat.le_refl _) fun hs => (hR hs).elim

theorem Production.reads {x : Rule α} (hR : ¬R.spelled) (h : Production n x) (hn : ∀ b, R.total b ≤ k + n) :
  ∃ P, Reads R k 1 P fun _ => x
  := by
  have hinner (b : Bool) : R.total b ≤ k + 1 + (n - 1) := by
    have := hn b
    omega
  induction h with
  | identifier => exact ⟨_, reads_identifier⟩
  | params => exact ⟨_, reads_params⟩
  | pattern => exact ⟨_, reads_pattern⟩
  | innerPattern => exact ⟨_, reads_patternAt hn⟩
  | fieldPattern => exact ⟨_, reads_field (reads_patternAt hn)⟩
  | recordPattern => exact ⟨_, reads_recordPattern (reads_patternAt hinner) (absurd · hR)⟩
  | tuplePattern => exact ⟨_, reads_tuplePattern (reads_patternAt hinner) (absurd · hR)⟩
  | expr => exact ⟨_, reads_exprAt hn⟩
  | binary level h ih => exact ⟨_, reads_binaryBelow level (.unspelled hR ih)⟩
  | suffixed => exact ⟨_, reads_suffixed (reads_exprAt hinner)⟩
  | primary => exact ⟨_, reads_primary (reads_exprAt hinner)⟩
  | arguments => exact ⟨_, reads_arguments (reads_exprAt hinner)⟩
  | field => exact ⟨_, reads_field (reads_exprAt hn)⟩
  | record => exact ⟨_, reads_record (reads_exprAt hinner) (absurd · hR)⟩
  | tuple => exact ⟨_, reads_tuple (reads_exprAt hinner) (absurd · hR)⟩
  | declaration => exact ⟨_, reads_declaration (reads_exprAt hn)⟩
  | sentence => exact ⟨_, reads_sentence (reads_exprAt hn)⟩
  | branch => exact ⟨_, reads_branch (reads_exprAt hn)⟩
  | clause => exact ⟨_, reads_clause (reads_exprAt hn) _⟩
  | conditional => exact ⟨_, reads_conditional (reads_exprAt hn)⟩
  | alternatives => exact ⟨_, reads_alternatives (reads_exprAt hn)⟩
  | whileLoop => exact ⟨_, reads_whileLoop (reads_exprAt hn)⟩
  | forLoop => exact ⟨_, reads_forLoop (reads_exprAt hn)⟩
  | attempt => exact ⟨_, reads_attempt (reads_exprAt hn)⟩
  | procedure => exact ⟨_, reads_procedure (reads_exprAt hn) (absurd · hR)⟩
  | handler => exact ⟨_, reads_handler (reads_exprAt hn)⟩
  | actor => exact ⟨_, reads_actor (reads_exprAt hn)⟩

theorem Repetition.reads {x : Nat → Rule α} {m : Bool → Nat} (hR : ¬R.spelled) (h : Repetition n x)
    (hn : ∀ b, R.total b ≤ k + n) (hm : ∀ b, R.total b + 1 ≤ k + m b) :
  ∃ P, Reads R k 0 P fun b => x (m b)
  := by
  have hle (b : Bool) : R.total b ≤ k + m b := Nat.le_of_succ_le (hm b)
  cases h with
  | program => exact ⟨_, reads_programAt hle⟩
  | expr => exact ⟨_, (reads_exprAt hle).any⟩
  | pattern => exact ⟨_, (reads_patternAt hle).any⟩
  | separated close first h =>
    obtain ⟨_, h⟩ := h.reads hR hn
    exact ⟨_, reads_separated close h hm first⟩
  | introduced w h =>
    obtain ⟨_, h⟩ := h.reads hR hn
    exact ⟨_, reads_introduced w h hle⟩
  | patternItems close first h =>
    obtain ⟨_, h⟩ := h.reads hR hn
    exact ⟨_, reads_patternItems close h hm first⟩
  | sentences h => exact ⟨_, reads_sentences (.unspelled hR (h.reads hR hn)) hle⟩
  | declarations => exact ⟨_, reads_declarations (reads_exprAt hn) hm⟩
  | operators level _ _ h => exact ⟨_, reads_operators level (.unspelled hR (h.reads hR hn)) hle (absurd · hR)⟩
  | unary h => exact ⟨_, (reads_unary (.unspelled hR (h.reads hR hn)) hle).any⟩
  | suffixes => exact ⟨_, reads_suffixes (reads_exprAt hn) hle (absurd · hR)⟩
  | actorItems => exact ⟨_, reads_actorItems (reads_exprAt hn) hm⟩

/-- Two readings of the tokens from a cursor on. -/
def Readings.ofCursor (c : Cursor) : Readings := ⟨c.index + c.rest.length + 1, fun _ => c.index + c.rest.length, False⟩

theorem ReadsIf.eq {i : Nat} {x : Bool → Rule α} {c : Cursor} (h : Reads (.ofCursor c) c.index i P x) :
  x true c = x false c
  := by
  have hat (b : Bool) : (Readings.ofCursor c).At c.index b c := ⟨Nat.le_refl _, rfl, False.elim⟩
  have hmoves (b : Bool) := h.moves b c trivial (hat b)
  have hplace : place (x true c) < (Readings.ofCursor c).shared := Nat.lt_succ_of_le (hmoves true).le_end
  rcases h.tracks (fun _ => c) ⟨rfl, rfl, rfl⟩ (fun b => ⟨trivial, hat b⟩) true hplace with ⟨e, he⟩ | ⟨a, d, ha, hd⟩
  · exact (he true).trans (he false).symm
  · -- what is left is all shared, so the cursors are equal
    have hlength (b : Bool) : (d b).rest.length ≤ (Readings.ofCursor c).shared - (d b).index := by
      have hb := hmoves b
      rw [show x b c = _ from ha b] at hb
      cases hb with
      | ok _ hrest =>
        dsimp only [Readings.ofCursor]
        rw [hrest, length_append]
        omega
    have hrest := hd.rest
    rw [take_of_length_le (hlength true), take_of_length_le (hlength false)] at hrest
    have heq : d true = d false := by
      rw [show d true = ⟨(d true).index, (d true).last, (d true).rest⟩ from rfl, hd.index, hd.last, hrest]
    exact (ha true).trans (heq ▸ (ha false).symm)

/-- Inner constructs start later, so it does not matter which rule reads those that are nested too deep. -/
theorem eq_iterate {l : Nat → Rule α} {f : Rule α → Rule α} (hl : ∀ n, l (n + 1) = f (l n)) {c : Cursor}
    (hf : ∀ {k x}, Reads (.ofCursor c) (k + 1) 1 P x → Reads (.ofCursor c) k 1 P fun b => f (x b))
    (hn : c.rest.length < n) (deepest : Rule α) :
  l n c = f^[n] deepest c
  := by
  have hreads : Reads (.ofCursor c) c.index 1 P fun b => bif b then l n else f^[n] deepest := by
    refine ReadsIf.loop (V := fun _ => True) (s := ()) (l := fun b n _ => bif b then l n else f^[n] deepest) 1
      (fun h => by cases h) (fun k' _ n ih _ _ => ?_) (fun _ => Nat.add_le_add_left hn _) trivial
    refine (hf (ih () trivial)).congr fun b _ _ => ?_
    cases b with
    | true => exact congrFun (hl _) _
    | false => exact congrFun (Function.iterate_succ_apply' ..) _
  exact hreads.eq

end Rule

/-- Every rule for a construct moves strictly forward, but not past the end, or fails where it has come to.  No
reading is ended by a bound that is larger than the number of tokens that are left, whatever would be read there;
so reading comes to an end. -/
theorem ofTokens_progress (tokens : List Lexeme) :
  (∀ {n : Nat} {c : Cursor} {α : Type} {x : Rule α}, c.rest.length ≤ n → Rule.Production n x →
    Rule.Moves 1 (fun _ => True) c (x c)) ∧
  (∀ {n : Nat} {c : Cursor} {α : Type} {x : Nat → Rule α}, c.rest.length ≤ n → Rule.Repetition n x →
    ∀ m m', c.rest.length < m → c.rest.length < m' → x m c = x m' c) ∧
  (∀ {n : Nat} {c : Cursor}, c.rest.length < n →
    (∀ deepest, Rule.exprAt n c = Rule.exprOf^[n] deepest c) ∧
    ∀ deepest, Rule.patternAt n c = Rule.patternOf^[n] deepest c) ∧
  ∀ n, tokens.length ≤ n →
    Program.ofTokens tokens = ((Rule.programAt n).run ⟨0, .unknown, tokens⟩).map Prod.fst
  := by
  refine ⟨fun {n c α x} hn hx => ?_, fun {n c α x} hn hx m m' hm hm' => ?_, fun hn => ?_, fun n hn => ?_⟩
  · have hreads : Rule.Reads (.ofCursor c) c.index 1 (fun _ => True) fun _ => x :=
      .unspelled not_false (hx.reads not_false fun _ => Nat.add_le_add_left hn _)
    have hmoves := hreads.moves true c trivial ⟨Nat.le_refl _, rfl, False.elim⟩
    simpa only [implies_true] using hmoves
  · have hbounds : ∀ b, c.index + c.rest.length + 1 ≤ c.index + bif b then m else m' := by
      rintro (_ | _)
      · exact Nat.add_le_add_left hm' _
      · exact Nat.add_le_add_left hm _
    obtain ⟨_, hreads⟩ := hx.reads (R := .ofCursor c) not_false (fun _ => Nat.add_le_add_left hn _) hbounds
    exact hreads.eq
  · exact ⟨Rule.eq_iterate (fun _ => rfl) Rule.reads_exprOf hn, Rule.eq_iterate (fun _ => rfl) Rule.reads_patternOf hn⟩
  · have hreads : Rule.Reads (.ofCursor ⟨0, .unknown, tokens⟩) 0 0 (fun p => ∀ e ∈ p.body, e.Proper) fun b =>
        Rule.programAt (bif b then tokens.length else n) := by
      apply Rule.reads_programAt
      rintro (_ | _)
      · exact Nat.add_le_add_left hn _
      · exact Nat.le_refl _
    have hrun := hreads.eq
    exact congrArg (Except.map Prod.fst) hrun

/-- An error is at a token or at the end, and any tokens that are the same up to there lead to the same error. -/
theorem ofTokens_error {tokens : List Lexeme} {e : ParseError} (h : Program.ofTokens tokens = .error e) :
  e.position ≤ tokens.length ∧
    ∀ others, others.take (e.position + 1) = tokens.take (e.position + 1) → Program.ofTokens others = .error e
  := by
  have hrun {tokens : List Lexeme} : Program.ofTokens tokens = .error e ↔
      Rule.program ⟨0, .unknown, tokens⟩ = .error e := by
    rw [Program.ofTokens, StateT.run]
    cases Rule.program ⟨0, .unknown, tokens⟩ <;> simp [Except.map]
  rw [hrun] at h
  have hreads (others : List Lexeme) := Rule.reads_program (k := 0)
    (R := ⟨e.position + 1, fun b => (bif b then tokens else others).length, False⟩)
  constructor
  · have hmoves := (hreads []).moves true ⟨0, .unknown, tokens⟩ trivial ⟨Nat.le_refl _, Nat.zero_add _, False.elim⟩
    rw [h] at hmoves
    exact Nat.le_trans hmoves.le_end (Nat.le_of_eq (Nat.zero_add _))
  · intro others htake
    rw [hrun]
    have htracks := (hreads others).tracks (fun b => ⟨0, .unknown, bif b then tokens else others⟩)
      ⟨rfl, rfl, htake.symm⟩ (fun b => ⟨trivial, Nat.le_refl _, Nat.zero_add _, False.elim⟩) true
      (by simp only [cond_true, h, Rule.place, Nat.lt_succ_self])
    rcases htracks with ⟨_, he⟩ | ⟨a, d, ha, -⟩
    · cases h.symm.trans (he true)
      exact he false
    · cases h.symm.trans (ha true)

theorem ofTokens_error_unclosed :
  Program.ofTokens [⟨.mark .lparen, .unknown⟩, ⟨.word .end_, .unknown⟩, ⟨.mark .rparen, .unknown⟩] =
    .error ⟨.expression (some (.word .end_)), 1, .unknown⟩
  := by
  have h : Program.ofTokens [⟨.mark .lparen, .unknown⟩, ⟨.word .end_, .unknown⟩] =
      .error ⟨.expression (some (.word .end_)), 1, .unknown⟩ := rfl
  exact (ofTokens_error h).2 _ rfl

end ActorLang
