import ActorLang.Literal
import ActorLang.Text.Span

/-!
# Programs as written

Sentences and expressions are one type: any of them may stand where a value is expected, possibly
producing none.  Every expression and every pattern keeps the span of the text it is written in.
-/

namespace ActorLang

inductive BinaryOp where
  | add | subtract | multiply | divide | modulo
  | equals | notEquals | greaterThan | lessThan | greaterOrEqual | lessOrEqual
  | and | or
  deriving DecidableEq

inductive UnaryOp where
  | not | negate
  deriving DecidableEq

/-- Whether a handler answers requests or takes notifications. -/
inductive HandlerKind where
  | ask | tell
  deriving DecidableEq

mutual

inductive Pattern where
  | mk (span : Span) (form : PatternForm)

inductive PatternForm where
  | lit (value : Literal)
  /-- A name that captures what it matches. -/
  | ident (name : String)
  /-- A name whose present value is to be matched. -/
  | escaped (name : String)
  | wildcard
  | record (label : Option Pattern) (fields : List (Pattern × Pattern)) (isPartial : Bool)
  | tuple (label : Option Pattern) (values : List Pattern) (isPartial : Bool)

end

namespace Pattern

def span : Pattern → Span
  | mk s _ => s

def form : Pattern → PatternForm
  | mk _ f => f

instance : Inhabited Pattern := ⟨mk .unknown .wildcard⟩

end Pattern

mutual

inductive Expr where
  | mk (span : Span) (form : Form)

inductive Form where
  | lit (value : Literal)
  | ident (name : String)
  | record (label : Option Expr) (fields : List (Expr × Expr))
  | tuple (label : Option Expr) (values : List Expr)
  | binary (op : BinaryOp) (left right : Expr)
  | unary (op : UnaryOp) (operand : Expr)
  /-- The content of a cell. -/
  | content (cell : Expr)
  | select (record feature : Expr)
  | apply (proc : Expr) (args : List Expr)
  | selectApply (record : Expr) (name : String) (args : List Expr)
  | var (decls : List Decl)
  | unify (left right : Expr)
  | assign (cell value : Expr)
  | func (name : Option String) (params : List String) (body : List Expr)
  | proc (name : Option String) (params : List String) (body : List Expr)
  | block (body : List Expr)
  | ifElse (branches : List Branch) (otherwise : Option (List Expr))
  | cases (arg : Expr) (clauses : List Clause) (otherwise : Option (List Expr))
  | whileLoop (cond : Expr) (body : List Expr)
  | forLoop (name : String) (iter : Expr) (body : List Expr)
  | attempt (body : List Expr) (catches : List Clause) (final : Option (List Expr))
  | throw (value : Expr)
  | ret (value : Option Expr)
  | brk
  | cont
  | skip
  | actor (name : String) (params : List String) (items : List ActorItem)

/-- A declared name and its initial value. -/
inductive Decl where
  | mk (name : String) (value : Option Expr)

/-- A condition and what is done when it holds. -/
inductive Branch where
  | mk (cond : Expr) (body : List Expr)

/-- A pattern, a guard and what is done when both hold. -/
inductive Clause where
  | mk (pattern : Pattern) (guard : Option Expr) (body : List Expr)

/-- A part of an actor: a sentence of its start or a message handler. -/
inductive ActorItem where
  | sentence (e : Expr)
  | handler (kind : HandlerKind) (clause : Clause)

end

namespace Expr

def span : Expr → Span
  | mk s _ => s

def form : Expr → Form
  | mk _ f => f

instance : Inhabited Expr := ⟨mk .unknown .skip⟩

end Expr

namespace Clause

def pattern : Clause → Pattern
  | mk p _ _ => p

def guard : Clause → Option Expr
  | mk _ g _ => g

def body : Clause → List Expr
  | mk _ _ b => b

end Clause

/-- A program: its sentences, the last of which gives its value. -/
structure Program where
  body : List Expr

/-- The numeric literal with the other sign.  The least 32-bit integer widens, and the least
64-bit integer has no opposite. -/
def Literal.negate? : Literal → Option Literal
  | int32 n =>
    some (if n = Int32.minValue then int64 (Int64.ofInt (-n.toInt)) else int32 (-n))
  | int64 n => if n = Int64.minValue then none else some (int64 (-n))
  | flt32 x => some (flt32 x.neg)
  | flt64 x => some (flt64 x.neg)
  | dec128 x => some (dec128 x.neg)
  | _ => none

end ActorLang
