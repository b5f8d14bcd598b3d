import ActorLang.Lowering.Pattern
import Mathlib.Data.List.Basic

/-!
# Faults of programs

A jump has to have somewhere to go, and a label or feature of a pattern has to be known before
anything is matched.  `Expr.Offends` says that there is a fault somewhere in an expression, and
which error it is.
-/

namespace ActorLang

/-! ### Patterns -/

namespace PatternForm

def label? : PatternForm → Option Pattern
  | record label _ _ => label
  | tuple label _ _ => label
  | lit _ => none
  | ident _ => none
  | escaped _ => none
  | wildcard => none

def features : PatternForm → List Pattern
  | record _ fields _ => fields.map (·.1)
  | tuple _ _ _ => []
  | lit _ => []
  | ident _ => []
  | escaped _ => []
  | wildcard => []

/-- The patterns of the fields. -/
def parts : PatternForm → List Pattern
  | record _ fields _ => fields.map (·.2)
  | tuple _ values _ => values
  | lit _ => []
  | ident _ => []
  | escaped _ => []
  | wildcard => []

/-- A literal that can be a feature, or an escaped name. -/
def isExact : PatternForm → Bool
  | lit value => value.isFeature
  | escaped _ => true
  | ident _ => false
  | wildcard => false
  | record _ _ _ => false
  | tuple _ _ _ => false

end PatternForm

/-- A label or a feature in the pattern, at any depth, is not known in advance. -/
inductive Pattern.Offends : Pattern → LowerError → Prop where
  | label {p q : Pattern} (hq : p.form.label? = some q) (h : q.form.isExact = false) :
      p.Offends ⟨.patternLabel, q.span⟩
  | feature {p q : Pattern} (hq : q ∈ p.form.features) (h : q.form.isExact = false) :
      p.Offends ⟨.patternFeature, q.span⟩
  | part {p q : Pattern} {error : LowerError} (hq : q ∈ p.form.parts) (h : q.Offends error) :
      p.Offends error

/-! ### Places -/

/-- What is around an expression, as far as jumps are concerned: whether it stands in the body of a
loop, and whether the function, procedure or handler in which it stands has a result. -/
structure Place where
  inLoop : Bool
  hasResult? : Option Bool

namespace Place

/-- The place of a program, and of the start of an actor. -/
def outside : Place := ⟨false, none⟩

/-- The place of the body of a function. -/
def func (hasResult : Bool) : Place := ⟨false, some hasResult⟩

/-- The place of the body of a loop. -/
def loop (k : Place) : Place := { k with inLoop := true }

end Place

/-! ### Parts -/

def Decl.value? : Decl → Option Expr
  | mk _ value => value

/-- The condition and the body of a branch. -/
def Branch.exprs : Branch → List Expr
  | mk cond body => cond :: body

/-- The guard and the body of a clause. -/
def Clause.exprs : Clause → List Expr
  | mk _ guard body => guard.toList ++ body

/-- The expressions of which an actor consists, each with its place. -/
def ActorItem.parts : ActorItem → List (Place × Expr)
  | sentence e => [(.outside, e)]
  | handler kind clause => clause.exprs.map (.func (kind = .ask), ·)

/-- The pattern of a handler. -/
def ActorItem.pattern? : ActorItem → Option Pattern
  | sentence _ => none
  | handler _ clause => some clause.pattern

namespace Form

/-- The expressions of which an expression at a place consists, each with its own place. -/
def parts (k : Place) : Form → List (Place × Expr)
  | lit _ => []
  | ident _ => []
  | record label fields => (label.toList ++ fields.flatMap fun f => [f.1, f.2]).map (k, ·)
  | tuple label values => (label.toList ++ values).map (k, ·)
  | binary _ left right => [(k, left), (k, right)]
  | unary _ operand => [(k, operand)]
  | content cell => [(k, cell)]
  | select rec feature => [(k, rec), (k, feature)]
  | apply callee args => (callee :: args).map (k, ·)
  | selectApply rec _ args => (rec :: args).map (k, ·)
  | var decls => (decls.filterMap Decl.value?).map (k, ·)
  | unify left right => [(k, left), (k, right)]
  | assign cell value => [(k, cell), (k, value)]
  | func _ _ body => body.map (.func true, ·)
  | proc _ _ body => body.map (.func false, ·)
  | block body => body.map (k, ·)
  | ifElse branches otherwise =>
    (branches.flatMap Branch.exprs ++ otherwise.toList.flatten).map (k, ·)
  | cases arg clauses otherwise =>
    (arg :: clauses.flatMap Clause.exprs ++ otherwise.toList.flatten).map (k, ·)
  | whileLoop cond body => (k, cond) :: body.map (k.loop, ·)
  | forLoop _ iter body => (k, iter) :: body.map (k.loop, ·)
  | attempt body catches final =>
    (body ++ catches.flatMap Clause.exprs ++ final.toList.flatten).map (k, ·)
  | throw value => [(k, value)]
  | ret value => value.toList.map (k, ·)
  | brk => []
  | cont => []
  | skip => []
  | actor _ _ items => items.flatMap ActorItem.parts

/-- The patterns of the clauses and handlers of an expression. -/
def patterns : Form → List Pattern
  | cases _ clauses _ => clauses.map Clause.pattern
  | attempt _ catches _ => catches.map Clause.pattern
  | actor _ _ items => items.filterMap ActorItem.pattern?
  | _ => []

/-- What is wrong with a jump at a place. -/
def fault? (k : Place) : Form → Option LowerCause
  | brk => if k.inLoop then none else some .breakOutsideLoop
  | cont => if k.inLoop then none else some .continueOutsideLoop
  | ret value => match k.hasResult? with
    | none => some .returnOutsideFunc
    | some hasResult => if value.isSome && !hasResult then some .returnValueInProc else none
  | _ => none

end Form

/-- Something in an expression that stands at the place is at fault: the expression itself is a
jump that has nowhere to go, one of its patterns offends, or one of its parts does. -/
inductive Expr.Offends : Place → Expr → LowerError → Prop where
  | jump {k e cause} (h : e.form.fault? k = some cause) : Offends k e ⟨cause, e.span⟩
  | pattern {k : Place} {e : Expr} {p : Pattern} {error : LowerError} (hp : p ∈ e.form.patterns)
      (h : p.Offends error) : Offends k e error
  | part {k e q error} (hq : q ∈ e.form.parts k) (h : Offends q.1 q.2 error) : Offends k e error

/-- Something in the program is at fault. -/
def Program.Offends (p : Program) (error : LowerError) : Prop :=
  ∃ e ∈ p.body, e.Offends .outside error

/-! ### Decomposition -/

variable {span : Span} {form : Form}

section Decomposition

variable {k j : Place} {e : Expr} {es es' : List Expr} {p : Pattern} {error : LowerError}

theorem Pattern.offends_iff :
  p.Offends error ↔ (∃ q, p.form.label? = some q ∧ q.form.isExact = false ∧ error = ⟨.patternLabel, q.span⟩) ∨
    (∃ q ∈ p.form.features, q.form.isExact = false ∧ error = ⟨.patternFeature, q.span⟩) ∨
    ∃ q ∈ p.form.parts, q.Offends error
  := by
  constructor
  · intro h
    cases h with
    | label hq h => exact .inl ⟨_, hq, h, rfl⟩
    | feature hq h => exact .inr (.inl ⟨_, hq, h, rfl⟩)
    | part hq h => exact .inr (.inr ⟨_, hq, h⟩)
  · rintro (⟨q, hq, h, rfl⟩ | ⟨q, hq, h, rfl⟩ | ⟨q, hq, h⟩)
    · exact .label hq h
    · exact .feature hq h
    · exact .part hq h

theorem Pattern.not_offends (hlabel : p.form.label? = none) (hfeatures : p.form.features = [])
    (hparts : p.form.parts = []) :
  ¬ p.Offends error
  := by
  rw [offends_iff, hlabel, hfeatures, hparts]
  simp

theorem Expr.offends_iff :
  e.Offends k error ↔ (∃ cause, e.form.fault? k = some cause ∧ error = ⟨cause, e.span⟩) ∨
    (∃ p ∈ e.form.patterns, p.Offends error) ∨ ∃ q ∈ e.form.parts k, q.2.Offends q.1 error
  := by
  constructor
  · intro h
    cases h with
    | jump h => exact .inl ⟨_, h, rfl⟩
    | pattern hp h => exact .inr (.inl ⟨_, hp, h⟩)
    | part hq h => exact .inr (.inr ⟨_, hq, h⟩)
  · rintro (⟨_, h, rfl⟩ | ⟨p, hp, h⟩ | ⟨q, hq, h⟩)
    · exact .jump h
    · exact .pattern hp h
    · exact .part hq h

/-- One of the expressions offends. -/
def AnyOffends (es : List Expr) (k : Place) (error : LowerError) : Prop :=
  ∃ e ∈ es, e.Offends k error

/-- The pattern of a clause, its guard or its body offends. -/
def Clause.Offends (k : Place) (c : Clause) (error : LowerError) : Prop :=
  c.pattern.Offends error ∨ AnyOffends c.exprs k error

@[simp] theorem anyOffends_nil :
  ¬ AnyOffends [] k error
  := by
  rintro ⟨e, he, -⟩
  cases he

@[simp] theorem anyOffends_cons :
  AnyOffends (e :: es) k error ↔ e.Offends k error ∨ AnyOffends es k error
  := by
  simp [AnyOffends]

@[simp] theorem anyOffends_append :
  AnyOffends (es ++ es') k error ↔ AnyOffends es k error ∨ AnyOffends es' k error
  := by
  simp [AnyOffends, or_and_right, exists_or]

theorem exists_map_offends_iff :
  (∃ q ∈ es.map (k, ·), q.2.Offends q.1 error) ↔ AnyOffends es k error
  := by
  simp [AnyOffends]

/-- An expression that is neither a jump nor has patterns offends if one of its parts does. -/
theorem Expr.offends_iff_anyOffends (hfault : form.fault? k = none) (hpatterns : form.patterns = [])
    (hparts : form.parts k = es.map (j, ·)) :
  (Expr.mk span form).Offends k error ↔ AnyOffends es j error
  := by
  rw [offends_iff]
  simp only [Expr.form, hfault, hpatterns, hparts, exists_map_offends_iff]
  simp

theorem Expr.not_offends (hfault : form.fault? k = none) (hpatterns : form.patterns = []) (hparts : form.parts k = []) :
  ¬ (Expr.mk span form).Offends k error
  := by
  have hnil : form.parts k = [].map (k, ·) := hparts
  rw [offends_iff_anyOffends hfault hpatterns hnil]
  exact anyOffends_nil

theorem Expr.offends_iff_jump (hpatterns : form.patterns = []) (hparts : form.parts k = es.map (k, ·)) :
  (Expr.mk span form).Offends k error ↔
    (∃ cause, form.fault? k = some cause ∧ error = ⟨cause, span⟩) ∨ AnyOffends es k error
  := by
  rw [offends_iff]
  simp only [Expr.form, Expr.span, hpatterns, hparts, exists_map_offends_iff]
  simp

theorem Expr.offends_iff_loop (hfault : form.fault? k = none)
    (hpatterns : form.patterns = []) (hparts : form.parts k = (k, e) :: es.map (k.loop, ·)) :
  (Expr.mk span form).Offends k error ↔ AnyOffends [e] k error ∨ AnyOffends es k.loop error
  := by
  rw [offends_iff]
  simp only [Expr.form, hfault, hpatterns, hparts]
  simp [AnyOffends]

/-- An expression with clauses offends if one of these or something beside them does. -/
theorem Expr.offends_iff_clauses {clauses : List Clause} {before after : List Expr} (hfault : form.fault? k = none)
    (hpatterns : form.patterns = clauses.map Clause.pattern)
    (hparts : form.parts k = (before ++ clauses.flatMap Clause.exprs ++ after).map (k, ·)) :
  (Expr.mk span form).Offends k error ↔
    AnyOffends before k error ∨ (∃ c ∈ clauses, c.Offends k error) ∨ AnyOffends after k error
  := by
  have hexprs : AnyOffends (clauses.flatMap Clause.exprs) k error ↔ ∃ c ∈ clauses, AnyOffends c.exprs k error := by
    simp only [AnyOffends]
    grind
  rw [offends_iff]
  simp only [Expr.form, hparts]
  rw [exists_map_offends_iff, anyOffends_append, anyOffends_append]
  simp only [Clause.Offends]
  grind

end Decomposition

end ActorLang
