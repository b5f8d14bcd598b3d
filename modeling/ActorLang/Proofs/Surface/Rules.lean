import ActorLang.Proofs.Pattern.Flattening
import ActorLang.Proofs.Surface.Tokens
import ActorLang.Surface.Parse

/-!
# What the rules of the reader do

`Reads` compares two readings of token lists that agree up to a place.  A rule moves forward, or
fails where it has come to, and both readings do the same as long as they have seen the same.  The
bounds on nesting and repetition may differ, if both are as large as the number of tokens that are
left.  If the names among the tokens are written ones, the result has a given property.
-/

namespace ActorLang

open List

/-- All names in the pattern are written ones. -/
def Pattern.Proper (p : Pattern) : Prop := ∀ u ∈ p.uses, Written u.name

/-- The names among the tokens that are left are written ones. -/
def Cursor.Spelled (c : Cursor) : Prop := ∀ l ∈ c.rest, l.token.Spelled

/-- The span of the token at the cursor, at the end that of the last token. -/
def Cursor.here (c : Cursor) : Span :=
  match c.rest with
  | l :: _ => l.span
  | [] => c.last

theorem Cursor.here_eq (c : Cursor) :
  c.here = (c.rest.head?.map Lexeme.span).getD c.last
  := by
  rw [here]
  cases c.rest with
  | nil | cons => rfl

namespace Rule

/-- Two readings of token lists. -/
structure Readings where
  /-- The number of tokens that are the same. -/
  shared : Nat
  /-- The number of tokens of either list. -/
  total : Bool → Nat
  /-- Whether the names among the tokens are written ones. -/
  spelled : Prop

/-- A reading has come to a place, or further. -/
structure Readings.At (R : Readings) (k : Nat) (b : Bool) (c : Cursor) : Prop where
  index : k ≤ c.index
  total : c.index + c.rest.length = R.total b
  spelled : R.spelled → c.Spelled

/-- Both readings are at the same place. -/
structure Readings.Abreast (R : Readings) (c : Bool → Cursor) : Prop where
  index : (c true).index = (c false).index
  last : (c true).last = (c false).last
  rest : (c true).rest.take (R.shared - (c true).index) = (c false).rest.take (R.shared - (c false).index)

variable {α β : Type} {R : Readings} {k k' i j n : Nat} {P P' : α → Prop} {Q : β → Prop}

/-- A rule reads at least `i` tokens, or fails at one that is left or at the end. -/
inductive Moves (i : Nat) (P : α → Prop) (c : Cursor) : Except ParseError (α × Cursor) → Prop where
  | error {e} (h : c.index ≤ e.position) (hle : e.position ≤ c.index + c.rest.length) :
      Moves i P c (.error e)
  | ok {a d} (read : List Lexeme) (hrest : c.rest = read ++ d.rest)
      (hindex : d.index = c.index + read.length) (hread : i ≤ read.length) (h : P a) :
      Moves i P c (.ok (a, d))

/-- Where a rule has come to. -/
def place : Except ParseError (α × Cursor) → Nat
  | .error e => e.position
  | .ok (_, d) => d.index

/-- Two readings come to the same, unless both have gone on to where the tokens differ. -/
def Readings.Tracks (R : Readings) (r : Bool → Except ParseError (α × Cursor)) : Prop :=
  ∀ b, place (r b) < R.shared →
    (∃ e, ∀ b, r b = .error e) ∨ ∃ a d, (∀ b, r b = .ok (a, d b)) ∧ R.Abreast d

/-- From cursors of a kind, the rules read at least `i` tokens and do the same in both readings, and the result
satisfies `P`. -/
structure ReadsIf (R : Readings) (G : Cursor → Prop) (k i : Nat) (P : α → Prop) (x : Bool → Rule α) : Prop where
  moves : ∀ b c, G c → R.At k b c → Moves i (fun a => R.spelled → P a) c (x b c)
  tracks : ∀ c, R.Abreast c → (∀ b, G (c b) ∧ R.At k b (c b)) → R.Tracks fun b => x b (c b)

/-- From the place `k` on. -/
abbrev Reads (R : Readings) (k i : Nat) (P : α → Prop) (x : Bool → Rule α) : Prop :=
  ReadsIf R (fun _ => True) k i P x

/-- From the place `k` on, at a given token. -/
abbrev ReadsAt (R : Readings) (got : Option Token) (k i : Nat) (P : α → Prop) (x : Bool → Rule α) : Prop :=
  ReadsIf R (fun c => c.rest.head?.map Lexeme.token = got) k i P x

/-! ### Combining rules -/

section Combine

variable {γ : Type} {G : Cursor → Prop} {x : Bool → Rule α} {f : Bool → α → Rule β} {c : Bool → Cursor}

theorem Readings.At.moved {c d : Cursor} {b : Bool} {read : List Lexeme} (h : R.At k b c)
    (hrest : c.rest = read ++ d.rest) (hindex : d.index = c.index + read.length) (hread : i ≤ read.length) :
  R.At (k + i) b d
  := by
  obtain ⟨_, htotal, hspelled⟩ := h
  rw [hrest, length_append] at htotal
  refine ⟨by omega, by omega, fun hs l hl => hspelled hs l ?_⟩
  rw [hrest]
  exact mem_append_right _ hl

theorem Moves.index_le {c : Cursor} {r : Except ParseError (α × Cursor)} (h : Moves i P c r) :
  c.index ≤ place r
  := by
  cases h with
  | error h => exact h
  | ok _ _ hindex =>
    rw [place, hindex]
    exact Nat.le_add_right ..

theorem Moves.le_end {c : Cursor} {r : Except ParseError (α × Cursor)} (h : Moves i P c r) :
  place r ≤ c.index + c.rest.length
  := by
  cases h with
  | error _ hle => exact hle
  | ok _ hrest =>
    rw [place, hrest, length_append]
    omega

theorem Moves.bind {c : Cursor} {x : Rule α} {f : α → Rule β} (hx : Moves i P c (x c))
    (hf : ∀ a d, x c = .ok (a, d) → Moves j Q d (f a d)) (hn : n ≤ i + j) :
  Moves n Q c ((x >>= f) c)
  := by
  change Moves _ _ _ (Except.bind (x c) fun p => f p.1 p.2)
  generalize x c = r at hx hf
  cases hx with
  | error h hle => exact .error h hle
  | @ok a d read hrest hindex _ =>
    have hd := hf a d rfl
    dsimp only [Except.bind]
    generalize f a d = r at hd
    cases hd with
    | error =>
      refine .error (by omega) ?_
      rw [hrest, length_append]
      omega
    | ok more hrest' hindex' _ hQ =>
      refine .ok (read ++ more) ?_ ?_ ?_ hQ
      · rw [hrest, hrest', append_assoc]
      · rw [hindex', hindex, length_append, Nat.add_assoc]
      · rw [length_append]
        omega

/-- Beyond what the lists share, there is nothing to compare. -/
theorem Readings.Abreast.beyond {r : Bool → Except ParseError (α × Cursor)} (h : R.Abreast c)
    (hshared : ¬(c false).index < R.shared) (hmoves : ∀ b, Moves i P (c b) (r b)) :
  R.Tracks r
  := by
  intro b _
  have hindex : (c b).index = (c false).index := by
    cases b with
    | false => rfl
    | true => exact h.index
  have := (hmoves b).index_le
  omega

theorem Readings.Abreast.head (h : R.Abreast c) (hshared : (c false).index < R.shared) :
  (c true).rest.head? = (c false).rest.head?
  := by
  have hrest := congrArg head? h.rest
  rwa [h.index, head?_take, head?_take, if_neg (by omega), if_neg (by omega)] at hrest

namespace ReadsIf

theorem later (h : ReadsIf R G k i P x) (hk : k ≤ k') :
  ReadsIf R G k' i P x where
  moves b c hc hat := h.moves b c hc { hat with index := Nat.le_trans hk hat.index }
  tracks c hc hat := h.tracks c hc fun b => ⟨(hat b).1, { (hat b).2 with index := Nat.le_trans hk (hat b).2.index }⟩

theorem seq (hx : ReadsIf R G k i P x) (hf : ∀ a, (R.spelled → P a) → Reads R (k + i) j Q fun b => f b a)
    (hn : n ≤ i + j) :
  ReadsIf R G k n Q fun b => x b >>= f b
  := by
  have hrest {b : Bool} {c d : Cursor} {a : α} (hc : G c) (hat : R.At k b c) (ha : x b c = .ok (a, d)) :
      R.At (k + i) b d ∧ Reads R (k + i) j Q fun b => f b a := by
    have hmoves := hx.moves b c hc hat
    rw [ha] at hmoves
    cases hmoves with
    | ok _ hrest hindex hread h => exact ⟨hat.moved hrest hindex hread, hf a h⟩
  constructor
  · intro b c hc hat
    refine (hx.moves b c hc hat).bind (fun a d ha => ?_) hn
    obtain ⟨hd, hreads⟩ := hrest hc hat ha
    exact hreads.moves b d trivial hd
  · intro c hc hat b hb
    have hrun (b : Bool) : (x b >>= f b) (c b) = Except.bind (x b (c b)) fun p => f b p.1 p.2 := rfl
    simp only [hrun] at hb ⊢
    have hbefore : place (x b (c b)) < R.shared := by
      cases ha : x b (c b) with
      | error =>
        rw [ha] at hb
        exact hb
      | ok =>
        rw [ha] at hb
        obtain ⟨hd, hreads⟩ := hrest (hat b).1 (hat b).2 ha
        exact Nat.lt_of_le_of_lt (hreads.moves b _ trivial hd).index_le hb
    rcases hx.tracks c hc hat b hbefore with ⟨e, he⟩ | ⟨a, d, ha, hd⟩
    · refine .inl ⟨e, fun b => ?_⟩
      rw [show x b (c b) = _ from he b]
      rfl
    · obtain ⟨-, hreads⟩ := hrest (hat b).1 (hat b).2 (ha b)
      simp only [ha] at hb ⊢
      exact hreads.tracks d hd (fun b => ⟨trivial, (hrest (hat b).1 (hat b).2 (ha b)).1⟩) b hb

/-- Something has been read before the rest. -/
theorem next (hx : ReadsIf R G k i P x) (hf : ∀ a, (R.spelled → P a) → Reads R (k + i) 0 Q fun b => f b a) :
  ReadsIf R G k i Q fun b => x b >>= f b
  := hx.seq hf (Nat.le_refl _)

theorem bind (hx : ReadsIf R G k i P x) (hf : ∀ a, (R.spelled → P a) → Reads R k 0 Q fun b => f b a) :
  ReadsIf R G k i Q fun b => x b >>= f b
  := hx.next fun a ha => (hf a ha).later (Nat.le_add_right ..)

theorem before (hx : ReadsIf R G k j P x) (hf : ∀ a, (R.spelled → P a) → Reads R k i Q fun b => f b a) :
  ReadsIf R G k i Q fun b => x b >>= f b
  := hx.seq (fun a ha => (hf a ha).later (Nat.le_add_right ..)) (Nat.le_add_left ..)

/-- What a rule sees of the cursor decides how it goes on. -/
theorem look {g : Cursor → γ} {f : Bool → γ → Rule α}
    (hg : ∀ c, R.Abreast c → (c false).index < R.shared → g (c true) = g (c false))
    (hf : ∀ c, (R.spelled → c.Spelled) → ReadsIf R (fun d => g d = g c) k i P fun b => f b (g c)) :
  Reads R k i P fun b c => f b (g c) c
  := by
  have hmoves {b : Bool} {c : Cursor} (hat : R.At k b c) :
      Moves i (fun a => R.spelled → P a) c (f b (g c) c) := (hf c hat.spelled).moves b c rfl hat
  refine ⟨fun b c _ => hmoves, fun c hc hat => ?_⟩
  by_cases hshared : (c false).index < R.shared
  · have heq (b : Bool) : g (c b) = g (c false) := by
      cases b with
      | false => rfl
      | true => exact hg c hc hshared
    simp only [heq]
    exact (hf (c false) (hat false).2.spelled).tracks c hc fun b => ⟨heq b, (hat b).2⟩
  · exact hc.beyond hshared fun b => hmoves (hat b).2

theorem of_reads (h : Reads R k i P x) :
  ReadsIf R G k i P x where
  moves b c _ hat := h.moves b c trivial hat
  tracks c hc hat := h.tracks c hc fun b => ⟨trivial, (hat b).2⟩

theorem imp (h : ReadsIf R G k i P x) (hj : j ≤ i) (hP : R.spelled → ∀ a, P a → P' a) :
  ReadsIf R G k j P' x where
  moves b c hc hat := by
    have hmoves := h.moves b c hc hat
    generalize x b c = r at hmoves ⊢
    cases hmoves with
    | error h hle => exact .error h hle
    | ok read hrest hindex hread h => exact .ok read hrest hindex (Nat.le_trans hj hread) fun hs => hP hs _ (h hs)
  tracks := h.tracks

theorem any (h : ReadsIf R G k i P x) :
  ReadsIf R G k 0 P x
  := h.imp (Nat.zero_le _) fun _ _ => id

/-- Something has been read before the next round. -/
theorem each (hx : ReadsIf R G k i P x) (hf : ∀ a, (R.spelled → P a) → Reads R (k + i) 0 Q fun b => f b a) :
  ReadsIf R G k 0 Q fun b => x b >>= f b
  := (hx.next hf).any

theorem pure {a : α} (h : R.spelled → P a) :
  Reads R k 0 P fun _ => Pure.pure a where
  moves _ _ _ _ := .ok [] rfl rfl (Nat.le_refl _) h
  tracks c hc _ _ _ := .inr ⟨a, c, fun _ => rfl, hc⟩

theorem fail (cause : ParseCause) :
  Reads R k i P fun _ => Rule.fail cause
  := by
  apply look (g := fun c => ParseError.mk cause c.index c.here) (f := fun _ e _ => .error e)
  · intro c hc hshared
    rw [hc.index, Cursor.here_eq, Cursor.here_eq, hc.last, hc.head hshared]
  · intro c _
    refine ⟨fun b d hd _ => ?_, fun _ _ _ _ _ => .inl ⟨_, fun _ => rfl⟩⟩
    have hindex : d.index = c.index := congrArg ParseError.position hd
    exact .error (Nat.le_of_eq hindex) (hindex ▸ Nat.le_add_right ..)

theorem congr {y : Bool → Rule α} (h : ReadsIf R G k i P y) (heq : ∀ b c, R.At k b c → x b c = y b c) :
  ReadsIf R G k i P x where
  moves b c hc hat := heq b c hat ▸ h.moves b c hc hat
  tracks c hc hat := by
    simp only [fun b => heq b (c b) (hat b).2]
    exact h.tracks c hc hat

/-- The number of tokens that are left bounds a repetition. -/
theorem remaining {f : Bool → Nat → Rule α} (hf : ∀ k', k ≤ k' → Reads R k' i P fun b => f b (R.total b - k')) :
  Reads R k i P fun b => Rule.remaining >>= f b
  := by
  have hrun {b : Bool} {c : Cursor} (hat : R.At k b c) :
      (Rule.remaining >>= f b) c = f b (R.total b - c.index) c := by
    rw [← hat.total, Nat.add_sub_cancel_left]
    rfl
  constructor
  · intro b c _ hat
    rw [hrun hat]
    exact (hf c.index hat.index).moves b c trivial { hat with index := Nat.le_refl _ }
  · intro c hc hat
    have hindex (b : Bool) : (c b).index = (c false).index := by
      cases b with
      | false => rfl
      | true => exact hc.index
    simp only [fun b => hrun (hat b).2, hindex]
    exact (hf _ (hat false).2.index).tracks c hc fun b =>
      ⟨trivial, { (hat b).2 with index := Nat.le_of_eq (hindex b).symm }⟩

/-- A repetition that reads something each time.  Its bound is as large as the number of tokens that are left, or
larger if that is needed in order to find the end. -/
theorem loop {σ : Type} {V : σ → Prop} {l : Bool → Nat → σ → Rule α} {n : Bool → Nat} {s : σ} (e : Nat)
    (hzero : e = 0 → ∀ b s i span, l b 0 s ⟨i, span, []⟩ = l b 1 s ⟨i, span, []⟩)
    (hstep : ∀ k', k ≤ k' → ∀ n : Bool → Nat, (∀ s, V s → Reads R (k' + 1) i P fun b => l b (n b) s) →
      ∀ s, V s → Reads R k' i P fun b => l b (n b + 1) s)
    (hn : ∀ b, R.total b + e ≤ k + n b) (hs : V s) :
  Reads R k i P fun b => l b (n b) s
  := by
  have hall (m : Nat) : ∀ (k' : Nat) (n : Bool → Nat), k ≤ k' → (∀ b, R.total b < k' + m) →
      (∀ b, R.total b + e ≤ k' + n b) → ∀ s, V s → Reads R k' i P fun b => l b (n b) s := by
    induction m with
    | zero =>
      intro k' n _ hm _ s _
      have hnone {b : Bool} {c : Cursor} (hat : R.At k' b c) : False := by
        have := hm b
        have := hat.index
        have := hat.total
        omega
      exact ⟨fun b c _ hat => (hnone hat).elim, fun c _ hat => (hnone (hat true).2).elim⟩
    | succ m ih =>
      intro k' n hk _ hn s hs
      refine (hstep k' hk (fun b => n b - 1) (ih _ _ (by omega) (by grind) (by grind)) s hs).congr ?_
      intro b c hat
      cases hb : n b with
      | succ => rfl
      | zero =>
        have hb' := hn b
        obtain ⟨_, _, -⟩ := hat
        obtain ⟨index, last, rest⟩ := c
        obtain rfl : rest = [] := length_eq_zero_iff.mp (by dsimp only at *; omega)
        exact hzero (by dsimp only [length_nil] at *; omega) b s index last
  exact hall (R.total false + R.total true + 1) k n (Nat.le_refl _) (by rintro (_ | _) <;> omega) hn s hs

end ReadsIf

end Combine

/-! ### Single tokens -/

/-- The token is no generated name. -/
def Found (t : Option Token) : Prop := ∀ token ∈ t, token.Spelled

theorem reads_peekSpan :
  Reads R k 0 (fun _ => True) fun _ => peekSpan
  := by
  apply ReadsIf.look (g := Cursor.here) (f := fun _ span => pure span)
  · intro c hc hshared
    rw [Cursor.here_eq, Cursor.here_eq, hc.last, hc.head hshared]
  · intro c _
    exact .of_reads (.pure fun _ => trivial)

theorem reads_lastSpan :
  Reads R k 0 (fun _ => True) fun _ => lastSpan
  := by
  apply ReadsIf.look (f := fun _ span => pure span)
  · exact fun c hc _ => hc.last
  · exact fun c _ => .of_reads (.pure fun _ => trivial)

theorem reads_peek {f : Bool → Option Token → Rule α}
    (hf : ∀ got, (R.spelled → Found got) → ReadsAt R got k i P fun b => f b got) :
  Reads R k i P fun b => peek >>= f b
  := by
  apply ReadsIf.look
  · intro c hc hshared
    rw [hc.head hshared]
  · intro c hc
    refine hf _ fun hs t ht => ?_
    obtain ⟨l, hl, rfl⟩ := Option.map_eq_some_iff.mp ht
    exact hc hs l (mem_of_mem_head? hl)

theorem reads_advance {t : Token} :
  ReadsAt R (some t) k 1 (fun _ => True) fun _ => advance
  := by
  have hrun {c : Cursor} (hc : c.rest.head?.map Lexeme.token = some t) :
      ∃ l rest, c.rest = l :: rest ∧ advance c = .ok ((), ⟨c.index + 1, l.span, rest⟩) := by
    obtain ⟨_, _, rest⟩ := c
    cases rest with
    | nil => cases hc
    | cons l rest => exact ⟨l, rest, rfl, rfl⟩
  constructor
  · intro b c hc _
    obtain ⟨l, _, hrest, hrun⟩ := hrun hc
    rw [hrun]
    exact .ok [l] hrest rfl (Nat.le_refl _) fun _ => trivial
  · intro c hc hat b hb
    choose l rest hrest hrun using fun b => hrun (hat b).1
    refine .inr ⟨(), fun b => ⟨(c b).index + 1, (l b).span, rest b⟩, hrun, ?_⟩
    simp only [hrun, place] at hb
    have hindex : (c b).index = (c false).index := by
      cases b with
      | false => rfl
      | true => exact hc.index
    have htake := hc.rest
    rw [hc.index, hrest, hrest, show R.shared - (c false).index = R.shared - ((c false).index + 1) + 1 by omega,
      take_succ_cons, take_succ_cons, cons.injEq] at htake
    exact ⟨congrArg (· + 1) hc.index, congrArg Lexeme.span htake.1, hc.index ▸ htake.2⟩

theorem eat_bind (t : Token) (f : Bool → Rule α) :
  eat t >>= f = peek >>= fun got => if got = some t then advance >>= fun _ => f true else f false
  := by
  rw [eat, bind_assoc]
  congr 1
  funext got
  split
  · rw [bind_assoc]
    rfl
  · rfl

theorem reads_eat {f : Bool → Bool → Rule α} (t : Token) (hyes : Reads R (k + 1) (i - 1) P fun b => f b true)
    (hno : Reads R k i P fun b => f b false) :
  Reads R k i P fun b => eat t >>= f b
  := by
  simp only [eat_bind]
  apply reads_peek
  intro _ _
  split
  case isTrue h =>
    subst h
    exact reads_advance.seq (fun _ _ => hyes) (by omega)
  case isFalse => exact .of_reads hno

theorem reads_expect (t : Token) :
  Reads R k 1 (fun _ => True) fun _ => expect t
  := by
  apply reads_peek
  intro _ _
  split
  case isTrue h =>
    subst h
    exact reads_advance
  · exact .of_reads (.fail _)

theorem reads_expect_then {t : Token} {x : Bool → Rule α} (h : Reads R k i P x) :
  Reads R k i P fun b => expect t >>= fun _ => x b
  := (reads_expect t).before fun _ _ => h

theorem reads_identifier :
  Reads R k 1 Written fun _ => identifier
  := by
  apply reads_peek
  intro _ hgot
  split
  case h_1 name =>
    apply reads_advance.bind
    intro _ _
    exact .pure fun hs => hgot hs _ rfl
  case h_2 => exact .of_reads (.fail _)

theorem reads_fieldName :
  Reads R k 1 (fun _ => True) fun _ => fieldName
  := by
  apply reads_peek
  intro _ _
  split
  · apply reads_advance.bind
    intro _ _
    exact .pure fun _ => trivial
  · apply reads_advance.bind
    intro _ _
    exact .pure fun _ => trivial
  · exact .of_reads (reads_identifier.imp (Nat.le_refl _) fun _ _ _ => trivial)

theorem literal?_bind (f : Option Literal → Rule α) :
  literal? >>= f = peek >>= fun got =>
    (got.bind literalOf?).elim (f none) fun l => advance >>= fun _ => f (some l)
  := by
  rw [literal?, bind_assoc]
  congr 1
  funext got
  cases got.bind literalOf? with
  | none | some => rfl

theorem reads_literal? {f : Bool → Option Literal → Rule α}
    (hsome : ∀ l, Reads R (k + 1) (i - 1) P fun b => f b (some l)) (hnone : Reads R k i P fun b => f b none) :
  Reads R k i P fun b => literal? >>= f b
  := by
  simp only [literal?_bind]
  apply reads_peek
  intro got _
  cases hl : got.bind literalOf? with
  | some l =>
    obtain ⟨t, rfl, -⟩ := Option.bind_eq_some_iff.mp hl
    exact reads_advance.seq (fun _ _ => hsome l) (by omega)
  | none => exact .of_reads hnone

/-! ### Repetitions -/

section Repetitions

variable {item : Bool → Rule α} {n : Bool → Nat}

theorem reads_separated (close : Mark) (h : Reads R k 1 P item) (hn : ∀ b, R.total b + 1 ≤ k + n b) (first : Bool) :
  Reads R k 0 (fun items => ∀ a ∈ items, P a) fun b => separated close (item b) (n b) first
  := by
  refine ReadsIf.loop (V := fun _ => True) 1 nofun
    (fun k' hk n ih first _ => ?_) hn trivial
  have htail : Reads R k' 0 (fun items => ∀ a ∈ items, P a) fun b => do
      let a ← item b
      let rest ← separated close (item b) (n b) false
      return a :: rest := by
    apply (h.later hk).each
    intro a ha
    apply (ih false trivial).bind
    intro _ hrest
    exact .pure fun hs => forall_mem_cons.mpr ⟨ha hs, hrest hs⟩
  apply reads_peek
  intro _ _
  apply ReadsIf.of_reads
  split
  · exact .pure fun _ => forall_mem_nil _
  · cases first with
    | true => exact htail
    | false => exact reads_expect_then htail

theorem reads_enclosed (opening closing : Mark) (h : Reads R (k + 1) 1 P item) :
  Reads R k 1 (fun items => ∀ a ∈ items, P a) fun b => enclosed opening closing (item b)
  := by
  apply (reads_expect _).next
  intro _ _
  apply ReadsIf.remaining
  intro _ hk
  apply (reads_separated closing (h.later hk) (by omega) true).bind
  intro _ hitems
  apply reads_expect_then
  exact .pure hitems

theorem reads_introduced (w : Keyword) (h : Reads R k 1 P item) (hn : ∀ b, R.total b ≤ k + n b) :
  Reads R k 0 (fun items => ∀ a ∈ items, P a) fun b => introduced w (item b) (n b)
  := by
  refine ReadsIf.loop (V := fun _ => True) (s := ()) (l := fun b n _ => introduced w (item b) n) 0
    (fun _ _ _ _ _ => rfl)
    (fun k' hk n ih _ _ => ?_) hn trivial
  apply reads_eat
  · apply (h.later (Nat.le_succ_of_le hk)).before
    intro a ha
    apply (ih () trivial).bind
    intro _ hrest
    exact .pure fun hs => forall_mem_cons.mpr ⟨ha hs, hrest hs⟩
  · exact .pure fun _ => forall_mem_nil _

theorem reads_optional (w : Keyword) (h : Reads R (k + 1) j P item) :
  Reads R k 0 (fun o => ∀ a ∈ o, P a) fun b => optional w (item b)
  := by
  apply reads_eat
  · apply h.before
    intro a ha
    apply ReadsIf.pure
    rintro hs _ ⟨⟩
    exact ha hs
  · exact .pure fun _ => by simp

theorem reads_field (h : Reads R k 1 P item) :
  Reads R k 1 (fun f => P f.1 ∧ P f.2) fun b => do
    let feature ← item b
    expectMark .colon
    let value ← item b
    return (feature, value)
  := by
  apply h.bind
  intro _ hfeature
  apply reads_expect_then
  apply h.before
  intro _ hvalue
  exact .pure fun hs => ⟨hfeature hs, hvalue hs⟩

end Repetitions

theorem reads_params :
  Reads R k 1 (fun names => ∀ x ∈ names, Written x) fun _ => params
  := reads_enclosed _ _ reads_identifier

/-! ### Patterns -/

theorem proper_exactUses {p : Pattern} (h : p.Proper) :
  ∀ u ∈ p.exactUses, Written u.name
  := by
  obtain ⟨_, form⟩ := p
  cases form with
  | escaped name =>
    simpa [Pattern.exactUses, Pattern.form, NameUse.name, Pattern.Proper, Pattern.uses, PatternForm.uses] using h
  | _ => simp [Pattern.exactUses, Pattern.form]

theorem proper_flatMap_exactUses {ps : List Pattern} (h : ∀ p ∈ ps, p.Proper) :
  ∀ u ∈ ps.flatMap Pattern.exactUses, Written u.name
  := by
  intro u hu
  obtain ⟨p, hp, hu⟩ := mem_flatMap.mp hu
  exact proper_exactUses (h p hp) u hu

theorem proper_valueUses {ps : List Pattern} (h : ∀ p ∈ ps, p.Proper) :
  ∀ u ∈ valueUses ps, Written u.name
  := by
  induction ps with
  | nil => simp [valueUses]
  | cons p _ ih =>
    rw [forall_mem_cons] at h
    rw [valueUses, forall_mem_append]
    exact ⟨h.1, ih h.2⟩

section Patterns

variable {pattern : Bool → Rule Pattern} {start : Span} {label : Option Pattern}

theorem reads_patternNode {form : PatternForm} (h : R.spelled → ∀ u ∈ form.uses, Written u.name) :
  Reads R k 0 Pattern.Proper fun _ => patternNode start form
  := by
  apply reads_lastSpan.before
  intro _ _
  apply ReadsIf.pure
  intro hs
  exact h hs

theorem reads_patternItems {item : Bool → Rule α} {n : Bool → Nat} (close : Mark) (h : Reads R k 1 P item)
    (hn : ∀ b, R.total b + 1 ≤ k + n b) (first : Bool) :
  Reads R k 0 (fun r => ∀ a ∈ r.1, P a) fun b => patternItems close (item b) (n b) first
  := by
  refine ReadsIf.loop (V := fun _ => True) 1 nofun
    (fun k' hk n ih first _ => ?_) hn trivial
  have hclose {isPartial : Bool} : Reads R k' 0 (fun r : List α × Bool => ∀ a ∈ r.1, P a) fun _ => do
      expectMark close
      return ([], isPartial) := by
    apply reads_expect_then
    exact .pure fun _ => forall_mem_nil _
  have htail : Reads R k' 0 (fun r => ∀ a ∈ r.1, P a) fun b => do
      let a ← item b
      let rest ← patternItems close (item b) (n b) false
      return (a :: rest.1, rest.2) := by
    apply (h.later hk).each
    intro a ha
    apply (ih false trivial).bind
    intro _ hrest
    exact .pure fun hs => forall_mem_cons.mpr ⟨ha hs, hrest hs⟩
  apply reads_peek
  intro _ _
  apply ReadsIf.of_reads
  split
  · apply reads_eat
    · exact hclose.later (Nat.le_succ _)
    · exact hclose
  · cases first with
    | true =>
      apply reads_peek
      intro _ _
      exact .of_reads htail
    | false =>
      apply reads_expect_then
      apply reads_peek
      intro _ _
      split
      case isTrue h =>
        rw [h.2]
        apply reads_advance.before
        intro _ _
        exact hclose
      · exact .of_reads htail

theorem reads_recordPattern (h : Reads R (k + 1) 1 Pattern.Proper pattern)
    (hlabel : R.spelled → ∀ p ∈ label, p.Proper) :
  Reads R k 1 Pattern.Proper fun b => recordPattern (pattern b) start label
  := by
  apply (reads_expect _).next
  intro _ _
  apply ReadsIf.remaining
  intro _ hk
  apply (reads_patternItems _ (reads_field (h.later hk)) (by omega) true).before
  rintro ⟨_, _⟩ hfields
  apply reads_patternNode
  intro hs
  rw [PatternForm.uses, forall_mem_append, forall_mem_append]
  refine ⟨⟨proper_flatMap_exactUses (by simpa using hlabel hs), ?_⟩, ?_⟩
  · intro u hu
    obtain ⟨f, hf, hu⟩ := mem_flatMap.mp hu
    exact proper_exactUses (hfields hs f hf).1 u hu
  · rw [Lowering.fieldUses_eq_valueUses]
    apply proper_valueUses
    rw [forall_mem_map]
    exact fun f hf => (hfields hs f hf).2

theorem reads_tuplePattern (h : Reads R (k + 1) 1 Pattern.Proper pattern)
    (hlabel : R.spelled → ∀ p ∈ label, p.Proper) :
  Reads R k 1 Pattern.Proper fun b => tuplePattern (pattern b) start label
  := by
  apply (reads_expect _).next
  intro _ _
  apply ReadsIf.remaining
  intro _ hk
  apply (reads_patternItems _ (h.later hk) (by omega) true).before
  rintro ⟨_, _⟩ hvalues
  apply reads_patternNode
  intro hs
  rw [PatternForm.uses, forall_mem_append]
  exact ⟨proper_flatMap_exactUses (by simpa using hlabel hs), proper_valueUses (hvalues hs)⟩

theorem reads_labelledPattern {label : Pattern} (h : Reads R k 1 Pattern.Proper pattern)
    (hlabel : R.spelled → label.Proper) :
  Reads R k 0 Pattern.Proper fun b => labelledPattern (pattern b) start label
  := by
  have hsome : R.spelled → ∀ p ∈ some label, p.Proper := by
    rintro hs _ ⟨⟩
    exact hlabel hs
  apply reads_eat
  · apply reads_peek
    intro _ _
    apply ReadsIf.of_reads
    have h := h.later (Nat.le_add_right k 2)
    split
    · exact (reads_recordPattern h hsome).any
    · exact (reads_tuplePattern h hsome).any
    · exact .fail _
  · exact .pure hlabel

theorem reads_patternOf (h : Reads R (k + 1) 1 Pattern.Proper pattern) :
  Reads R k 1 Pattern.Proper fun b => patternOf (pattern b)
  := by
  have hnode (start : Span) {form : PatternForm} (hform : R.spelled → ∀ u ∈ form.uses, Written u.name) :
      Reads R (k + 1) 0 Pattern.Proper fun b => patternNode start form >>= labelledPattern (pattern b) start := by
    apply (reads_patternNode hform).before
    intro _ hlabel
    exact reads_labelledPattern h hlabel
  apply reads_peekSpan.before
  intro start _
  apply reads_eat
  · apply reads_literal?
    · intro l
      split
      · exact reads_patternNode (by simp [PatternForm.uses])
      · exact .fail _
    · exact .fail _
  · apply reads_literal?
    · intro l
      exact hnode start (by simp [PatternForm.uses])
    · apply reads_peek
      intro _ hgot
      split
      · apply reads_advance.next
        intro _ _
        exact hnode start (by simpa [PatternForm.uses, NameUse.name, Found, Token.Spelled] using hgot)
      · apply reads_advance.next
        intro _ _
        apply reads_identifier.before
        intro name hname
        exact hnode start (by simpa [PatternForm.uses, NameUse.name] using hname)
      · apply reads_advance.bind
        intro _ _
        exact reads_patternNode (by simp [PatternForm.uses])
      · exact .of_reads (reads_recordPattern h (by simp))
      · exact .of_reads (reads_tuplePattern h (by simp))
      · exact .of_reads (.fail _)

theorem reads_patternAt {n : Bool → Nat} (hn : ∀ b, R.total b ≤ k + n b) :
  Reads R k 1 Pattern.Proper fun b => patternAt (n b)
  := ReadsIf.loop (V := fun _ => True) (s := ()) (l := fun _ n _ => patternAt n) 0 (fun _ _ _ _ _ => rfl)
    (fun _ _ _ ih _ _ => reads_patternOf (ih () trivial)) hn trivial

theorem reads_pattern :
  Reads R k 1 Pattern.Proper fun _ => Rule.pattern
  := by
  apply ReadsIf.remaining
  intro _ _
  exact reads_patternAt (by omega)

end Patterns

end Rule

end ActorLang
