import ActorLang.Proofs.Lowering.Names
import ActorLang.Store.Basic

/-!
# The discipline of jumps and final parts

Jumps and final parts of attempts are labels and procedures by the time a statement runs.  `Ok` is
the discipline by which jumps find their catches and final parts run.  It follows, along a
statement, which labels can be reached and what is due: the final parts that have been entered and
not been run.
-/

namespace ActorLang

open Kernel (Ident Operand Stmt)
open List

variable {names occurrences special params : List Ident} {k : Kind}

namespace Kernel.Stmt

mutual

/-- The labels of the catches of a statement, without those of the procedures that it creates. -/
def catches : Stmt → List Nat
  | scope _ body => catches body
  | seq stmts => listCatches stmts
  | ifElse _ yes no => catches yes ++ catches no
  | cases _ _ yes no => catches yes ++ catches no
  | attempt body _ handler => catches body ++ catches handler
  | jumpCatch label => [label]
  | _ => []

def listCatches : List Stmt → List Nat
  | [] => []
  | s :: rest => catches s ++ listCatches rest

end

/-- Whether the handler of what is caught in `caught` runs the final part and throws again, at
once or when a throw leaves it. -/
def rethrows (final caught : Ident) : Stmt → Bool
  | seq [apply (.ident f) [], throw (.ident x)] => f = final && x = caught
  | attempt _ escaped (seq [apply (.ident f) [], throw (.ident x)]) =>
    f = final && x = escaped && escaped != final
  | _ => false

/-- Whether the scope of these names is an attempt with a final part, which is then the
procedure of its only name. -/
def isTry : List Ident → Stmt → Bool
  | [f], seq [createProc [] _ g, attempt _ caught handler, apply (.ident h) []] =>
    g = f && h = f && !decide (Written f) && caught != f && rethrows f caught handler
  | _, _ => false

theorem isTry_iff {s : Stmt} :
  isTry names s = true ↔ ∃ f block body caught handler, names = [f] ∧
    s = seq [createProc [] block f, attempt body caught handler, call f] ∧
    ¬ Written f ∧ caught ≠ f ∧ rethrows f caught handler = true
  := by
  constructor
  · intro h
    unfold isTry at h
    split at h
    · simp only [Bool.and_eq_true, decide_eq_true_eq, Bool.not_eq_true', decide_eq_false_iff_not,
        bne_iff_ne] at h
      obtain ⟨⟨⟨⟨rfl, rfl⟩, hf⟩, hcaught⟩, hhandler⟩ := h
      exact ⟨_, _, _, _, _, rfl, rfl, hf, hcaught, hhandler⟩
    · cases h
  · rintro ⟨f, _, _, _, _, rfl, rfl, hf, hcaught, hhandler⟩
    simp [isTry, call, hf, hcaught, hhandler]

/-- A statement that neither contains statements nor changes the flow of control. -/
def isSimple : Stmt → Bool
  | bind .. | binary .. | negate .. | get .. | set .. | select .. | selectApply ..
  | createRecord .. | createTuple .. => true
  | _ => false

theorem size_induction {motive : Stmt → Prop}
    (smaller : ∀ s, (∀ part, sizeOf part < sizeOf s → motive part) → motive s) (s : Stmt) :
  motive s
  := WellFounded.induction (measure sizeOf).wf s smaller

end Kernel.Stmt

namespace Control

/-- The variables of the final parts that have been entered and not been run, innermost first. -/
abbrev Due := List VarId

/-- What is due at the catches that can be reached, by their labels. -/
abbrev Labels := Nat → Option Due

/-- A procedure that a construct makes for itself: its variable if it is a final part, what is
due when it returns, and the labels that it may jump to. -/
structure Role where
  final : Option VarId
  due : Due
  labels : Labels

/-- What is due when a procedure with the role is called.  A final part is not due any more once
it runs. -/
def Role.before (r : Role) : Due := r.final.toList ++ r.due

theorem Role.before_none (r : Role) (h : r.final = none) :
  r.before = r.due
  := by
  rw [before, h]
  rfl

theorem Role.before_some (r : Role) {v : VarId} (h : r.final = some v) :
  r.before = v :: r.due
  := by
  rw [before, h]
  rfl

/-- What a name stands for. -/
inductive Kind where
  | plain
  /-- A value of the program that is not called by this name. -/
  | data
  /-- Nothing that may be used. -/
  | absent
  | special (r : Role)

abbrev Typing := Ident → Kind

namespace Labels

def none : Labels := fun _ => .none

def set (Λ : Labels) (label : Nat) (due : Due) : Labels :=
  fun n => if n = label then some due else Λ n

instance : LE Labels := ⟨fun Λ Λ' => ∀ n due, Λ n = some due → Λ' n = some due⟩

/-- The labels with the catch that a statement is. -/
def catching (Λ : Labels) (due : Due) : Stmt → Labels
  | .jumpCatch label => Λ.set label due
  | _ => Λ

end Labels

def Kind.IsValue : Kind → Prop
  | plain => True
  | data => True
  | _ => False

namespace Typing

def set (Γ : Typing) (names : List Ident) (k : Kind) : Typing :=
  fun x => if x ∈ names then k else Γ x

/-- New names, of which some have a role. -/
def declare (Γ : Typing) (names special : List Ident) (r : Role) : Typing :=
  fun x => if x ∈ names then if x ∈ special then .special r else .plain else Γ x

/-- What the body of a procedure of the program may use. -/
def sealed (Γ : Typing) (params : List Ident) : Typing :=
  fun x => if x ∈ params then .plain else match Γ x with
    | .special _ => .absent
    | k => k

def Values (Γ : Typing) (names : List Ident) : Prop := ∀ x ∈ names, (Γ x).IsValue

/-- The application of an operand, for what is due before and after it.  A throw out of a final
part is taken by a handler for which it is not due, or still due. -/
def Applies (Γ : Typing) (Λ : Labels) (caught due due' : Due) (args : List Operand) :
    Operand → Prop
  | .ident f => match Γ f with
    | .special r => due = r.before ∧ due' = r.due ∧ r.labels ≤ Λ ∧
      if r.final.isSome then args = [] ∧ (caught = r.due ∨ r.before <:+ caught)
      else caught = r.due
    | .plain => due = caught ∧ due' = due
    | _ => False
  | .lit _ => due = caught ∧ due' = due

end Typing

mutual

/-- A statement keeps the discipline: names are used for what they stand for, labels are those of
`Λ`, `due` is due before it and `due'` after it, and wherever it may throw, what the handler
around it takes to be due is due.  Only on the way of a jump less is due than that. -/
def Ok : Stmt → (Γ : Typing) → (Λ : Labels) → (caught due due' : Due) → Prop
  | .scope names body, Γ, Λ, caught, due, due' =>
    if Stmt.isTry names body then
      due = caught ∧ due' = due ∧
        ∀ v, OkTry body (Γ.set names .absent) (Γ.set names (.special ⟨some v, due, Λ⟩)) Λ due (v :: due)
    else
      caught <:+ due ∧ ∃ special, Ok body (Γ.declare names special ⟨none, due, Λ⟩) Λ caught due due'
  | .seq stmts, Γ, Λ, caught, due, due' =>
    caught <:+ due ∧ ∃ Λ₀, Chain stmts Γ caught Λ₀ due Λ due'
  | .skip, _, _, caught, due, due' => caught <:+ due ∧ due' = due
  | .jumpCatch _, _, _, caught, due, due' => caught <:+ due ∧ due' = due
  | .jumpThrow label, _, Λ, _, due, _ => Λ label = some due
  | .throw arg, Γ, _, caught, due, _ => Γ.Values arg.idents ∧ due = caught
  | .attempt body name handler, Γ, Λ, caught, due, due' =>
    caught <:+ due ∧ due' = due ∧ handler.catches = [] ∧ Ok body Γ Λ due due due ∧
      Ok handler (Γ.set [name] .plain) Λ caught due due
  | .createProc params body target, Γ, _, caught, due, due' => due = caught ∧ match Γ target with
    | .special r => due' = due ∧ r.final = none ∧ Ok body (Γ.set params .plain) r.labels r.due r.due r.due ∧
      ∀ n ∈ body.catches, r.labels n = none
    | .absent => False
    | _ => due' = due ∧ ∀ d, Ok body (Γ.sealed params) .none d d d
  | .createActor params body target, Γ, _, caught, due, due' =>
    due = caught ∧ due' = due ∧ (Γ target).IsValue ∧ ∀ d, Ok body (Γ.sealed params) .none d d d
  | .apply proc args, Γ, Λ, caught, due, due' =>
    Γ.Values (Kernel.operandIdents args) ∧ Γ.Applies Λ caught due due' args proc
  | .ifElse cond yes no, Γ, Λ, caught, due, due' =>
    Γ.Values cond.idents ∧ due = caught ∧ Ok yes Γ Λ caught due due' ∧ Ok no Γ Λ caught due due'
  | .cases arg pattern yes no, Γ, Λ, caught, due, due' =>
    Γ.Values (arg.idents ++ pattern.pinned) ∧ due = caught ∧
      Ok yes (Γ.set pattern.captures .plain) Λ caught due due' ∧ Ok no Γ Λ caught due due'
  | s, Γ, _, caught, due, due' => Γ.Values s.occurrences ∧ due = caught ∧ due' = due

/-- An attempt with a final part keeps the discipline: the final part, which cannot name itself,
for what is due around the attempt, and the attempt with the final part due besides. -/
def OkTry : Stmt → (Γ₀ Γ : Typing) → (Λ : Labels) → (due inner : Due) → Prop
  | .seq [.createProc _ block _, attempt, _], Γ₀, Γ, Λ, due, inner =>
    Ok block Γ₀ Λ due due due ∧ (∀ n ∈ block.catches, Λ n = none) ∧ Ok attempt Γ Λ due inner inner
  | _, _, _, _, _, _ => False

/-- Statements one after the other keep the discipline: `Λ₀` are the labels that can be reached
while the first one is still to run, and `Λ` those after the last one.  What is due in between is
due before, at the end of what is due before, or due around or after them. -/
def Chain : List Stmt → (Γ : Typing) → (caught : Due) → (Λ₀ : Labels) → (due : Due) → (Λ : Labels) → (due' : Due) → Prop
  | [], _, _, Λ₀, due, Λ, due' => Λ₀ = Λ ∧ due' = due
  | s :: rest, Γ, caught, Λ₀, due, Λ, due' => ∃ Λ₁ due₁, Ok s Γ Λ₁ caught due due₁ ∧
    Chain rest Γ caught Λ₁ due₁ Λ due' ∧ Λ₀ = Λ₁.catching due s ∧
    (due₁ <:+ due ∨ due₁ = caught ∨ due₁ = due')

end

section Lemmas

variable {Γ : Typing} {Λ Λ₀ : Labels} {caught due due' : Due} {s : Stmt} {x f : Ident}

theorem ok_simple_iff (hs : s.isSimple = true) :
  Ok s Γ Λ caught due due' ↔ Γ.Values s.occurrences ∧ due = caught ∧ due' = due
  := by
  cases s <;> first | rfl | cases hs

theorem ok_call {v : VarId} (hf : Γ f = .special ⟨some v, due, Λ⟩) :
  Ok (.call f) Γ Λ due (v :: due) due
  := by
  refine ⟨fun x hx => (not_mem_nil hx).elim, ?_⟩
  rw [Typing.Applies, hf]
  exact ⟨rfl, rfl, fun _ _ h => h, rfl, .inl rfl⟩

/-- Where less is due than the handler around a statement takes to be due, it is part of a jump. -/
theorem Ok.behind (h : Ok s Γ Λ caught due due') (hless : ¬ caught <:+ due) :
  (∃ n, s = .jumpThrow n) ∨ ∃ f w, s = .call f ∧ due = w :: due' ∧ due <:+ caught
  := by
  have hnot (heq : due = caught) : False := hless (heq ▸ suffix_refl due)
  cases s with
  | jumpThrow n => exact .inl ⟨n, rfl⟩
  | scope =>
    rw [Ok] at h
    split at h
    · exact (hnot h.1).elim
    · exact absurd h.1 hless
  | seq | skip | jumpCatch | attempt => exact absurd h.1 hless
  | throw => exact (hnot h.2).elim
  | createProc | createActor => exact (hnot h.1).elim
  | apply proc args =>
    obtain ⟨-, happlies⟩ := h
    cases proc with
    | lit => exact (hnot happlies.1).elim
    | ident f =>
      rw [Typing.Applies] at happlies
      split at happlies
      case h_1 r _ =>
        obtain ⟨rfl, rfl, -, hcaught⟩ := happlies
        split at hcaught
        next hsome =>
          obtain ⟨w, hw⟩ := Option.isSome_iff_exists.mp hsome
          obtain ⟨rfl, rfl | hcaught⟩ := hcaught
          · exact absurd (r.before_some hw ▸ suffix_cons w _) hless
          · exact .inr ⟨f, w, rfl, r.before_some hw, hcaught⟩
        next hnone =>
          exact (hnot ((r.before_none (Option.not_isSome_iff_eq_none.mp hnone)).trans hcaught.symm)).elim
      case h_2 => exact (hnot happlies.1).elim
      case h_3 => cases happlies
  | _ => exact (hnot h.2.1).elim

/-! ### Names -/

theorem mem_filter_contains :
  x ∈ occurrences.filter (!names.contains ·) ↔ x ∈ occurrences ∧ x ∉ names
  := by
  simp

theorem set_of_mem (hx : x ∈ names) :
  Γ.set names k x = k
  := if_pos hx

theorem set_of_not_mem (hx : x ∉ names) :
  Γ.set names k x = Γ x
  := if_neg hx

theorem declare_of_not_mem {r : Role} (hx : x ∉ names) :
  Γ.declare names special r x = Γ x
  := if_neg hx

theorem isValue_of_sealed (hx : x ∉ params) (h : Γ.sealed params x ≠ .absent) :
  (Γ x).IsValue
  := by
  rw [Typing.sealed] at h
  cases hk : Γ x <;> simp_all [Kind.IsValue]

theorem ne_absent_of_isValue (h : k.IsValue) :
  k ≠ .absent
  := by
  rintro rfl
  apply h

theorem Typing.Values.not_absent (h : Γ.Values names) :
  ∀ x ∈ names, Γ x ≠ .absent
  := fun x hx => ne_absent_of_isValue (h x hx)

theorem Typing.Applies.not_absent {args : List Operand} {proc : Operand} (h : Γ.Applies Λ caught due due' args proc) :
  ∀ x ∈ proc.idents, Γ x ≠ .absent
  := by
  cases proc with
  | lit => simp [Operand.idents]
  | ident =>
    intro x hx habsent
    rw [Operand.idents, mem_singleton] at hx
    subst hx
    simp [Typing.Applies, habsent] at h

theorem Chain.not_absent {stmts : List Stmt} (ih : ∀ s ∈ stmts, ∀ {Λ : Labels} {due due' : Due},
      Ok s Γ Λ caught due due' → ∀ x ∈ s.occurrences, Γ x ≠ .absent)
    (h : Chain stmts Γ caught Λ₀ due Λ due') :
  ∀ x ∈ Stmt.listOccurrences stmts, Γ x ≠ .absent
  := by
  induction stmts generalizing Λ₀ due with
  | nil => simp [Stmt.listOccurrences]
  | cons s _ ihrest =>
    obtain ⟨_, _, hs, hrest, -, -⟩ := h
    rw [forall_mem_cons] at ih
    rw [Stmt.listOccurrences, forall_mem_append]
    exact ⟨ih.1 hs, ihrest ih.2 hrest⟩

theorem Ok.not_absent (h : Ok s Γ Λ caught due due') :
  ∀ x ∈ s.occurrences, Γ x ≠ .absent
  := by
  induction s using Stmt.size_induction generalizing Γ Λ caught due due' with | smaller s ih
  cases s with
  | scope _ body =>
    intro x hx
    rw [Stmt.occurrences, mem_filter_contains] at hx
    rw [Ok] at h
    split at h
    case isTrue htry =>
      obtain ⟨f, block, _, _, _, rfl, rfl, -⟩ := Stmt.isTry_iff.mp htry
      obtain ⟨hblock, -, hattempt⟩ := h.2.2 0
      obtain ⟨hx, hxf⟩ := hx
      simp only [Stmt.occurrences, Stmt.listOccurrences, Stmt.call, mem_append] at hx
      rcases hx with (hx | hx) | hx | hx | hx
      · rw [mem_filter_contains] at hx
        have := ih block (by decreasing_tactic) hblock x hx.1
        rwa [set_of_not_mem hxf] at this
      · contradiction
      · have := ih _ (by decreasing_tactic) hattempt x (by simpa [Stmt.occurrences] using hx)
        rwa [set_of_not_mem hxf] at this
      · simp_all [Operand.idents, Kernel.operandIdents]
      · cases hx
    case isFalse =>
      obtain ⟨-, _, h⟩ := h
      have := ih body (by decreasing_tactic) h x hx.1
      rwa [declare_of_not_mem hx.2] at this
  | seq =>
    obtain ⟨-, _, h⟩ := h
    apply Chain.not_absent _ h
    intro s hs _ _ _ h
    have := sizeOf_lt_of_mem hs
    apply ih s (by decreasing_tactic) h
  | skip | jumpThrow | jumpCatch => simp [Stmt.occurrences]
  | attempt body _ handler =>
    obtain ⟨-, -, -, hbody, hhandler⟩ := h
    rw [Stmt.occurrences, forall_mem_append]
    refine ⟨ih body (by decreasing_tactic) hbody, ?_⟩
    intro x hx
    rw [mem_filter] at hx
    have := ih handler (by decreasing_tactic) hhandler x hx.1
    rwa [set_of_not_mem (by simpa using hx.2)] at this
  | createProc _ body =>
    obtain ⟨-, h⟩ := h
    rw [Stmt.occurrences, forall_mem_append, forall_mem_singleton]
    split at h
    case h_1 r hr =>
      refine ⟨?_, by simp [hr]⟩
      intro x hx
      rw [mem_filter_contains] at hx
      have := ih body (by decreasing_tactic) h.2.2.1 x hx.1
      rwa [set_of_not_mem hx.2] at this
    case h_2 => cases h
    case h_3 _ hspecial habsent =>
      refine ⟨?_, habsent⟩
      intro x hx
      rw [mem_filter_contains] at hx
      apply ne_absent_of_isValue
      apply isValue_of_sealed hx.2 (ih body (by decreasing_tactic) (h.2 due) x hx.1)
  | createActor _ body =>
    obtain ⟨-, -, htarget, h⟩ := h
    rw [Stmt.occurrences, forall_mem_append, forall_mem_singleton]
    refine ⟨?_, ne_absent_of_isValue htarget⟩
    intro x hx
    rw [mem_filter_contains] at hx
    apply ne_absent_of_isValue
    apply isValue_of_sealed hx.2 (ih body (by decreasing_tactic) (h due) x hx.1)
  | apply =>
    rw [Stmt.occurrences, forall_mem_append]
    exact ⟨h.2.not_absent, h.1.not_absent⟩
  | ifElse _ yes no =>
    obtain ⟨hcond, -, hyes, hno⟩ := h
    rw [Stmt.occurrences, forall_mem_append, forall_mem_append]
    exact ⟨⟨hcond.not_absent, ih yes (by decreasing_tactic) hyes⟩, ih no (by decreasing_tactic) hno⟩
  | cases _ _ yes no =>
    obtain ⟨hvalues, -, hyes, hno⟩ := h
    rw [Stmt.occurrences, forall_mem_append, forall_mem_append]
    refine ⟨⟨hvalues.not_absent, ?_⟩, ih no (by decreasing_tactic) hno⟩
    intro x hx
    rw [mem_filter_contains] at hx
    have := ih yes (by decreasing_tactic) hyes x hx.1
    rwa [set_of_not_mem hx.2] at this
  | _ => apply h.1.not_absent

end Lemmas

end Control

end ActorLang
