import ActorLang.Lowering.Program
import Mathlib.Tactic.Common

/-!
# The parts of phrases

What is lowered from a list of parts comes from one of them, and the fields of a record are made of its operands.
-/

namespace ActorLang.Lowering

open Kernel (Ident Operand Stmt resultIdent)
open List

variable {p : Phrase} {alt : Alternative} {items : List ActorItem}

theorem alongPath_eq {span : Span} {form : Form} (hform : ∀ record feature, form ≠ .select record feature)
    (path : List Operand) :
  alongPath (.mk span form) path = (ofForm span form, path)
  := by
  rw [alongPath]
  exact fun record _ value heq => hform _ _ heq

theorem mem_parts {α β : Type} {f : List α → List β} (hnil : f [] = [])
    (hcons : ∀ a rest, f (a :: rest) = f [a] ++ f rest) {as : List α} {b : β} (h : b ∈ f as) :
  ∃ a ∈ as, b ∈ f [a]
  := by
  induction as with
  | nil => cases hnil ▸ h
  | cons a rest ih =>
    rcases mem_append.mp (hcons a rest ▸ h) with h | h
    · exact ⟨a, mem_cons_self .., h⟩
    · obtain ⟨a', ha', hb⟩ := ih h
      exact ⟨a', mem_cons_of_mem _ ha', hb⟩

theorem mem_ofOption {o : Option Expr} (h : p ∈ ofOption o) :
  ∃ e ∈ o, p = ofExpr e
  := by
  cases o with
  | none => cases h
  | some e =>
    cases h
    exact ⟨e, rfl, rfl⟩

theorem mem_ofOtherwise {o : Option (List Expr)} {b : Block} (h : b ∈ ofOtherwise o) :
  ∃ body ∈ o, b = block body (ofList body)
  := by
  cases o with
  | none => cases h
  | some body =>
    cases h
    exact ⟨body, rfl, rfl⟩

theorem mem_ofDecls {decls : List Decl} {d : Ident × Phrase} (h : d ∈ ofDecls decls) :
  ∃ name value, .mk name (some value) ∈ decls ∧ d = (name, ofExpr value)
  := by
  obtain ⟨⟨name, value⟩, hmem, hd⟩ := mem_parts rfl (by rintro ⟨_, _ | _⟩ _ <;> rfl) h
  cases value with
  | none => cases hd
  | some value => exact ⟨name, value, hmem, mem_singleton.mp hd⟩

theorem mem_ofBranches {branches : List Branch} {b : Phrase × Block} (h : b ∈ ofBranches branches) :
  ∃ cond body, .mk cond body ∈ branches ∧ b = (ofExpr cond, block body (ofList body))
  := by
  obtain ⟨⟨cond, body⟩, hmem, hb⟩ := mem_parts rfl (by rintro ⟨_, _⟩ _; rfl) h
  exact ⟨cond, body, hmem, mem_singleton.mp hb⟩

theorem mem_ofSentences (h : p ∈ ofSentences items) :
  ∃ e, .sentence e ∈ items ∧ p = ofExpr e
  := by
  obtain ⟨item, hmem, hp⟩ := mem_parts rfl (by rintro (_ | _) _ <;> rfl) h
  cases item with
  | handler => cases hp
  | sentence e => exact ⟨e, hmem, mem_singleton.mp hp⟩

theorem mem_ofHandlers {kind : HandlerKind} (h : alt ∈ ofHandlers kind items) :
  ∃ k p guard body, .handler k (.mk p guard body) ∈ items ∧ alt = ⟨p, ofOption guard, block body (ofList body)⟩
  := by
  have hcons (item : ActorItem) (rest : List ActorItem) :
      ofHandlers kind (item :: rest) = ofHandlers kind [item] ++ ofHandlers kind rest := by
    rcases item with _ | ⟨k, ⟨p, _, _⟩⟩
    · rfl
    · rw [ofHandlers, ofHandlers]
      split <;> rfl
  obtain ⟨item, hmem, halt⟩ := mem_parts rfl hcons h
  rcases item with _ | ⟨k, ⟨p, guard, body⟩⟩
  · cases halt
  · rw [ofHandlers] at halt
    split at halt
    · exact ⟨k, p, guard, body, hmem, mem_singleton.mp halt⟩
    · cases halt

theorem mem_of_pairs {args : List Operand} {f : Operand × Operand} (h : f ∈ record.pairs args) :
  f.1 ∈ args ∧ f.2 ∈ args
  := by
  fun_induction record.pairs args with
  | case1 a b _ ih =>
    rcases mem_cons.mp h with rfl | h
    · simp
    · obtain ⟨hfeature, hvalue⟩ := ih h
      simp [hfeature, hvalue]
  | case2 => cases h

/-! ### Alternatives -/

/-- The statement that matches child patterns, and goes on with `yes` if they match. -/
def matchChildrenThen (children : List ChildPattern) (yes failed : Stmt) : Stmt :=
  children.foldr (fun child yes => .cases (.ident child.arg) (.record child.pattern) yes failed) yes

/-- The statement that matches a lowered pattern, and goes on with `yes` if it matches. -/
def matchThen (arg : Operand) (root : Kernel.Pattern) (children : List ChildPattern) (yes failed : Stmt) : Stmt :=
  .cases arg root (matchChildrenThen children yes failed) failed

/-- The statement that goes on with `body` if there is no guard or it holds. -/
def guardThen (guard : Option Operand) (setup : Setup) (body failed : Stmt) : Stmt :=
  match guard with
  | some guard => setup.finish (.ifElse guard body failed)
  | none => body

/-- The parameters and the body of the procedure for what is left. -/
def leftOver (arg : Operand) (fallback : Fallback) (rest : List Alternative) : Target → Lower (List Ident × Stmt)
  | .ident _ => do
    let (no, _) ← inFrame .shadow (alternatives arg fallback rest (.ident resultIdent))
    return ([resultIdent], no)
  | .discard => do
    let no ← alternatives arg fallback rest .discard
    return ([], no)

theorem alternatives_cons (arg : Operand) (fallback : Fallback) (alt : Alternative) (rest : List Alternative)
    (target : Target) :
  alternatives arg fallback (alt :: rest) target = do
    let (root, children) ← alt.pattern.lower
    if rest.isEmpty && (children.isEmpty && alt.guard.isNone || fallback.isSkip) then
      let (guard, setup) ← optionalOperand alt.guard
      let body ← alt.body.into target
      let failed ← fallback.into target
      return matchThen arg root children (guardThen guard setup body failed) failed
    else
      let next ← freshTemp
      let (guard, setup) ← optionalOperand alt.guard
      let body ← alt.body.into target
      let (params, no) ← leftOver arg fallback rest target
      let failed : Stmt := .apply (.ident next) (targetArgs target)
      return .within [next] (.ofList [.createProc params no next,
        matchThen arg root children (guardThen guard setup body failed) failed])
  := by
  apply bind_congr
  rintro ⟨_, children⟩
  have hdirect : (rest.isEmpty && (children.isEmpty && alt.guard.isNone || rest.isEmpty && fallback.isSkip)) =
      (rest.isEmpty && (children.isEmpty && alt.guard.isNone || fallback.isSkip)) := by
    cases rest <;> rfl
  dsimp only
  rw [hdirect]
  split
  case isTrue h =>
    obtain rfl : rest = [] := isEmpty_iff.mp (Bool.and_eq_true_iff.mp h).1
    cases fallback <;> rfl
  case isFalse =>
    rw [bind_map_left]
    apply bind_congr
    intro _
    apply bind_congr
    rintro ⟨_, _⟩
    apply bind_congr
    intro _
    cases target with
    | ident | discard => rw [leftOver, bind_assoc]; rfl

end ActorLang.Lowering
