import ActorLang.Literal

/-!
# Kernel statements

The small statement language that the machine executes.  Statements take identifiers and literals as
operands, deliver values by unifying them with a target identifier, and match records one level
deep.
-/

namespace ActorLang.Kernel

/-- An identifier.  Those that start with `$` are made by the system. -/
abbrev Ident := String

/-- The identifier that receives the result of a procedure. -/
def resultIdent : Ident := "$r"

/-- The identifier of the message that a handler receives. -/
def messageIdent : Ident := "$m"

/-- The identifier that receives the value of a program. -/
def programResult : Ident := "$result"

inductive Operand where
  | ident (name : Ident)
  | lit (value : Literal)
  deriving DecidableEq, Inhabited

inductive BinaryPrim where
  | add | sub | mult | div | mod
  | lt | gt | le | ge | eq | ne
  deriving DecidableEq

namespace BinaryPrim

def name : BinaryPrim → String
  | add => "$add"
  | sub => "$sub"
  | mult => "$mult"
  | div => "$div"
  | mod => "$mod"
  | lt => "$lt"
  | gt => "$gt"
  | le => "$le"
  | ge => "$ge"
  | eq => "$eq"
  | ne => "$ne"

def all : List BinaryPrim := [add, sub, mult, div, mod, lt, gt, le, ge, eq, ne]

end BinaryPrim

/-- A label or feature of a record pattern: a literal, or the value of an identifier. -/
inductive FeaturePattern where
  | lit (value : Literal)
  | escaped (name : Ident)
  deriving DecidableEq

/-- A field of a record pattern: a literal, a capture, or the value of an identifier. -/
inductive LeafPattern where
  | lit (value : Literal)
  | ident (name : Ident)
  | escaped (name : Ident)
  deriving DecidableEq

/-- A pattern of records, one level deep.  A partial pattern admits further fields. -/
structure RecordPattern where
  label : Option FeaturePattern
  fields : List (FeaturePattern × LeafPattern)
  isPartial : Bool
  deriving DecidableEq

inductive Pattern where
  | lit (value : Literal)
  | ident (name : Ident)
  | escaped (name : Ident)
  | record (pattern : RecordPattern)
  deriving DecidableEq

/-! ### The identifiers of patterns -/

def LeafPattern.capture? : LeafPattern → Option Ident
  | ident name => some name
  | _ => none

def FeaturePattern.pinned? : FeaturePattern → Option Ident
  | escaped name => some name
  | lit _ => none

def LeafPattern.pinned? : LeafPattern → Option Ident
  | escaped name => some name
  | _ => none

def RecordPattern.captures (p : RecordPattern) : List Ident :=
  p.fields.filterMap (·.2.capture?)

/-- The identifiers whose values a record pattern reads, in order. -/
def RecordPattern.pinned (p : RecordPattern) : List Ident :=
  (p.label.bind (·.pinned?)).toList ++
    p.fields.flatMap fun (feature, leaf) => feature.pinned?.toList ++ leaf.pinned?.toList

def Pattern.captures : Pattern → List Ident
  | ident name => [name]
  | record p => p.captures
  | _ => []

/-- The identifiers whose values a pattern reads, in order. -/
def Pattern.pinned : Pattern → List Ident
  | escaped name => [name]
  | record p => p.pinned
  | _ => []

/-- A kernel statement. -/
inductive Stmt where
  /-- Runs the body with new unbound variables for the identifiers. -/
  | scope (idents : List Ident) (body : Stmt)
  | seq (stmts : List Stmt)
  | skip
  | bind (arg : Operand) (target : Ident)
  | binary (op : BinaryPrim) (left right : Operand) (target : Ident)
  | negate (arg : Operand) (target : Ident)
  | get (cell : Operand) (target : Ident)
  | set (cell value : Operand)
  | select (record feature : Operand) (target : Ident)
  /-- Applies the procedure found along a path of features. -/
  | selectApply (record : Operand) (path args : List Operand)
  | createRecord (label : Option Operand) (fields : List (Operand × Operand)) (target : Ident)
  | createTuple (label : Option Operand) (values : List Operand) (target : Ident)
  | createProc (params : List Ident) (body : Stmt) (target : Ident)
  /-- Makes a procedure that configures actors. -/
  | createActor (params : List Ident) (body : Stmt) (target : Ident)
  | apply (proc : Operand) (args : List Operand)
  | ifElse (cond : Operand) (yes no : Stmt)
  /-- Binds the captures of the pattern in `yes` if it matches. -/
  | cases (arg : Operand) (pattern : Pattern) (yes no : Stmt)
  | attempt (body : Stmt) (caught : Ident) (handler : Stmt)
  | throw (arg : Operand)
  /-- Unwinds to the catch of the same label. -/
  | jumpThrow (label : Nat)
  | jumpCatch (label : Nat)
  deriving Inhabited

namespace Stmt

/-- What a statement contributes to a sequence. -/
def elements : Stmt → List Stmt
  | skip => []
  | seq stmts => stmts
  | s => [s]

/-- The sequence of statements, without nested sequences and `skip`. -/
def ofList (stmts : List Stmt) : Stmt :=
  match stmts.flatMap elements with
  | [] => skip
  | [s] => s
  | rest => seq rest

/-- The body in the scope of the identifiers, if there are any. -/
def within (idents : List Ident) (body : Stmt) : Stmt :=
  if idents.isEmpty then body else scope idents body

def call (proc : Ident) : Stmt := apply (.ident proc) []

end Stmt

end ActorLang.Kernel
