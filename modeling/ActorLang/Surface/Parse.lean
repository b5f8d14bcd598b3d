import ActorLang.Surface.Basic
import ActorLang.Token.Scan

/-!
# From tokens to programs

A recursive-descent reader.  The rules of a construct take the rule for the expressions inside it as
an argument, and `exprAt` ties the knot: an inner expression starts at least one token later, so the
number of tokens bounds the nesting, and repetitions in the same way.
-/

namespace ActorLang

/-- What a reader found wrong. -/
inductive ParseCause where
  | expression (got : Option Token)
  | token (want : Token) (got : Option Token)
  /-- Neither brace nor bracket after the mark of a label. -/
  | container (got : Option Token)
  | handlerKind (got : Option Token)
  | identifier (got : Option Token)
  | pattern (got : Option Token)
  /-- No number after a minus sign in a pattern. -/
  | patternNumber
  | topLevel (got : Token)
  | noClauses

namespace ParseCause

def gotText : Option Token → String
  | some t => t.describe
  | none => "EOF"

def code : ParseCause → String
  | expression (some _) => "TQ-P001"
  | expression none => "TQ-P002"
  | token _ (some _) | container (some _) | handlerKind (some _) => "TQ-P003"
  | token _ none | container none | handlerKind none => "TQ-P004"
  | identifier (some _) => "TQ-P005"
  | identifier none => "TQ-P006"
  | pattern _ | patternNumber => "TQ-P007"
  | topLevel _ => "TQ-P008"
  | noClauses => "TQ-P009"

def message : ParseCause → String
  | expression got => "expected expression, got " ++ gotText got
  | token want got => "expected " ++ want.describe ++ ", got " ++ gotText got
  | container got => "expected '\x7b' or '[' after '#', got " ++ gotText got
  | handlerKind got => "expected 'ask' or 'tell', got " ++ gotText got
  | identifier got => "expected identifier, got " ++ gotText got
  | pattern got => "expected pattern, got " ++ gotText got
  | patternNumber => "expected a number after '-' in pattern"
  | topLevel got => "unexpected " ++ got.describe ++ " at top level"
  | noClauses => "case requires at least one 'of' clause"

end ParseCause

/-- An error at the token with an index. -/
structure ParseError where
  cause : ParseCause
  position : Nat
  span : Span

namespace ParseError

def code (e : ParseError) : String := e.cause.code

def message (e : ParseError) : String :=
  "Parse error at token " ++ toString e.position ++ ": " ++ e.cause.message

end ParseError

/-- A place among the tokens: its index, the span of the token before it and the tokens from
it on. -/
structure Cursor where
  index : Nat
  last : Span
  rest : List Lexeme

/-- A rule reads tokens from a place on and yields a result or an error. -/
abbrev Rule (α : Type) := StateT Cursor (Except ParseError) α

namespace Rule

/-! ### Single tokens -/

def peek : Rule (Option Token) := do
  return (← get).rest.head?.map Lexeme.token

/-- The span of the token at the cursor, at the end that of the last token. -/
def peekSpan : Rule Span := do
  let c ← get
  return match c.rest with
    | l :: _ => l.span
    | [] => c.last

def lastSpan : Rule Span := return (← get).last

def remaining : Rule Nat := return (← get).rest.length

def fail {α : Type} (cause : ParseCause) : Rule α := do
  let c ← get
  throw ⟨cause, c.index, ← peekSpan⟩

def advance : Rule Unit := modify fun c => match c.rest with
  | l :: rest => ⟨c.index + 1, l.span, rest⟩
  | [] => c

def eat (t : Token) : Rule Bool := do
  if (← peek) = some t then
    advance
    return true
  else return false

def expect (t : Token) : Rule Unit := do
  let got ← peek
  if got = some t then advance else fail (.token t got)

def expectWord (k : Keyword) : Rule Unit := expect (.word k)

def expectMark (m : Mark) : Rule Unit := expect (.mark m)

def eatWord (k : Keyword) : Rule Bool := eat (.word k)

def eatMark (m : Mark) : Rule Bool := eat (.mark m)

def identifier : Rule String := do
  match ← peek with
  | some (.ident name) =>
    advance
    return name
  | got => fail (.identifier got)

/-- The name of a field, which may also be one of the message words. -/
def fieldName : Rule String := do
  match ← peek with
  | some (.word .ask) =>
    advance
    return "ask"
  | some (.word .tell) =>
    advance
    return "tell"
  | _ => identifier

def wordLiteral? : Keyword → Option Literal
  | .true_ => some (.bool true)
  | .false_ => some (.bool false)
  | .null => some .null
  | .eof => some .eof
  | _ => none

def literalOf? : Token → Option Literal
  | .int32 n => some (.int32 n)
  | .int64 n => some (.int64 n)
  | .long n => some (.int64 n)
  | .float x => some (.flt64 x)
  | .float32 x => some (.flt32 x)
  | .decimal x => some (.dec128 x)
  | .char c => some (.char c)
  | .str s => some (.str s)
  | .word k => wordLiteral? k
  | .mark _ | .ident _ => none

def literal? : Rule (Option Literal) := do
  match (← peek).bind literalOf? with
  | some l =>
    advance
    return some l
  | none => return none

/-! ### Repetitions -/

/-- Items separated by commas up to a closing mark, which is not read. -/
def separated {α : Type} (close : Mark) (item : Rule α) :
    (fuel : Nat) → (first : Bool) → Rule (List α)
  | 0, _ => return []
  | fuel + 1, first => do
    if (← peek) = some (.mark close) then return []
    unless first do expectMark .comma
    let a ← item
    let rest ← separated close item fuel false
    return a :: rest

def enclosed {α : Type} (opening closing : Mark) (item : Rule α) : Rule (List α) := do
  expectMark opening
  let items ← separated closing item ((← remaining) + 1) true
  expectMark closing
  return items

def introduced {α : Type} (k : Keyword) (item : Rule α) : (fuel : Nat) → Rule (List α)
  | 0 => return []
  | fuel + 1 => do
    if ← eatWord k then
      let a ← item
      let rest ← introduced k item fuel
      return a :: rest
    else return []

def optional {α : Type} (k : Keyword) (item : Rule α) : Rule (Option α) := do
  if ← eatWord k then return some (← item) else return none

def params : Rule (List String) := enclosed .lparen .rparen identifier

/-! ### Patterns -/

def patternNode (start : Span) (form : PatternForm) : Rule Pattern := do
  return .mk (start.merge (← lastSpan)) form

/-- The items of a container pattern up to its closing mark, and whether the pattern is
partial. -/
def patternItems {α : Type} (close : Mark) (item : Rule α) :
    (fuel : Nat) → (first : Bool) → Rule (List α × Bool)
  | 0, _ => do
    let got ← peek
    fail (.pattern got)
  | fuel + 1, first => do
    let got ← peek
    if got = some (.mark close) ∨ got = some (.mark .ellipsis) then
      let isPartial ← eatMark .ellipsis
      expectMark close
      return ([], isPartial)
    unless first do expectMark .comma
    if !first ∧ (← peek) = some (.mark .ellipsis) then
      advance
      expectMark close
      return ([], true)
    let a ← item
    let (rest, isPartial) ← patternItems close item fuel false
    return (a :: rest, isPartial)

/-- A feature and a pattern with a colon between them. -/
def fieldPattern (pattern : Rule Pattern) : Rule (Pattern × Pattern) := do
  let feature ← pattern
  expectMark .colon
  let value ← pattern
  return (feature, value)

def recordPattern (pattern : Rule Pattern) (start : Span) (label : Option Pattern) :
    Rule Pattern := do
  expectMark .lbrace
  let (fields, isPartial) ← patternItems .rbrace (fieldPattern pattern) ((← remaining) + 1) true
  patternNode start (.record label fields isPartial)

def tuplePattern (pattern : Rule Pattern) (start : Span) (label : Option Pattern) :
    Rule Pattern := do
  expectMark .lbracket
  let (values, isPartial) ← patternItems .rbracket pattern ((← remaining) + 1) true
  patternNode start (.tuple label values isPartial)

/-- The container that follows a pattern as its label, if there is one. -/
def labelledPattern (pattern : Rule Pattern) (start : Span) (label : Pattern) : Rule Pattern := do
  if ← eatMark .hash then
    match ← peek with
    | some (.mark .lbrace) => recordPattern pattern start (some label)
    | some (.mark .lbracket) => tuplePattern pattern start (some label)
    | got => fail (.container got)
  else return label

/-- A pattern, given the rule for the patterns inside it. -/
def patternOf (pattern : Rule Pattern) : Rule Pattern := do
  let start ← peekSpan
  if ← eatMark .minus then
    match (← literal?).bind Literal.negate? with
    | some l => patternNode start (.lit l)
    | none => fail .patternNumber
  else match ← literal? with
    | some l => labelledPattern pattern start (← patternNode start (.lit l))
    | none => match ← peek with
      | some (.ident name) =>
        advance
        labelledPattern pattern start (← patternNode start (.ident name))
      | some (.mark .tilde) =>
        advance
        let name ← identifier
        labelledPattern pattern start (← patternNode start (.escaped name))
      | some (.mark .wildcard) =>
        advance
        patternNode start .wildcard
      | some (.mark .lbrace) => recordPattern pattern start none
      | some (.mark .lbracket) => tuplePattern pattern start none
      | got => fail (.pattern got)

/-- A pattern with at most `depth` tokens left. -/
def patternAt : (depth : Nat) → Rule Pattern
  | 0 => do
    let got ← peek
    fail (.pattern got)
  | depth + 1 => patternOf (patternAt depth)

def pattern : Rule Pattern := do
  patternAt (← remaining)

/-! ### Expressions -/

def node (start : Span) (form : Form) : Rule Expr := do
  return .mk (start.merge (← lastSpan)) form

/-- Whether the cursor is at a token that closes a sequence, or at the end. -/
def atSequenceEnd : Rule Bool := do
  return match ← peek with
    | none => true
    | some (.word k) => [.end_, .else_, .elseIf, .catch_, .finally_, .of_, .handle].contains k
    | some _ => false

def sentences (sentence : Rule Expr) : (fuel : Nat) → Rule (List Expr)
  | 0 => return []
  | fuel + 1 => do
    if ← atSequenceEnd then return []
    let e ← sentence
    let rest ← sentences sentence fuel
    return e :: rest

def declaration (expr : Rule Expr) : Rule Decl := do
  let name ← identifier
  if ← eatMark .assign then return .mk name (some (← expr)) else return .mk name none

def declarations (expr : Rule Expr) : (fuel : Nat) → Rule (List Decl)
  | 0 => return []
  | fuel + 1 => do
    let d ← declaration expr
    if ← eatMark .comma then
      let rest ← declarations expr fuel
      return d :: rest
    else return [d]

def sentence (expr : Rule Expr) : Rule Expr := do
  let start ← peekSpan
  if ← eatWord .var then
    let decls ← declarations expr ((← remaining) + 1)
    node start (.var decls)
  else
    let left ← expr
    if ← eatMark .assign then
      let right ← expr
      node start (.unify left right)
    else if ← eatMark .colonEq then
      let value ← expr
      node start (.assign left value)
    else return left

def sequence (expr : Rule Expr) : Rule (List Expr) := do
  sentences (sentence expr) (← remaining)

/-! ### Operators -/

/-- The binary operators of a level; higher levels bind less tightly. -/
def operatorAt? : (level : Nat) → Token → Option BinaryOp
  | 0, .mark .star => some .multiply
  | 0, .mark .slash => some .divide
  | 0, .mark .percent => some .modulo
  | 1, .mark .plus => some .add
  | 1, .mark .minus => some .subtract
  | 2, .mark .eq => some .equals
  | 2, .mark .notEq => some .notEquals
  | 2, .mark .less => some .lessThan
  | 2, .mark .lessEq => some .lessOrEqual
  | 2, .mark .greater => some .greaterThan
  | 2, .mark .greaterEq => some .greaterOrEqual
  | 3, .mark .andAnd => some .and
  | 4, .mark .orOr => some .or
  | _, _ => none

/-- The level of the relations, of which at most one is read. -/
def relationLevel : Nat := 2

/-- Operators of one level and their right operands, associated to the left. -/
def operators (level : Nat) (operand : Rule Expr) (start : Span) :
    (fuel : Nat) → (left : Expr) → Rule Expr
  | 0, left => return left
  | fuel + 1, left => do
    match (← peek).bind (operatorAt? level) with
    | none => return left
    | some op =>
      advance
      let right ← operand
      let e ← node start (.binary op left right)
      if level = relationLevel then return e else operators level operand start fuel e

def binaryBelow (operand : Rule Expr) : (n : Nat) → Rule Expr
  | 0 => operand
  | n + 1 => do
    let start ← peekSpan
    let left ← binaryBelow operand n
    operators n (binaryBelow operand n) start (← remaining) left

/-- The negation of an operand; the sign of a number joins the number. -/
def negation (operand : Expr) : Form :=
  match operand.form with
  | .lit l => match l.negate? with
    | some l => .lit l
    | none => .unary .negate operand
  | _ => .unary .negate operand

def unary (operand : Rule Expr) : (fuel : Nat) → Rule Expr
  | 0 => operand
  | fuel + 1 => do
    let start ← peekSpan
    match ← peek with
    | some (.mark .minus) =>
      advance
      let e ← unary operand fuel
      node start (negation e)
    | some (.mark .bang) =>
      advance
      let e ← unary operand fuel
      node start (.unary .not e)
    | some (.mark .atSign) =>
      advance
      let e ← unary operand fuel
      node start (.content e)
    | _ => operand

def arguments (expr : Rule Expr) : Rule (List Expr) := enclosed .lparen .rparen expr

/-- Selections and applications after an expression. -/
def suffixes (expr : Rule Expr) (start : Span) : (fuel : Nat) → (e : Expr) → Rule Expr
  | 0, e => return e
  | fuel + 1, e => do
    match ← peek with
    | some (.mark .dot) =>
      advance
      let nameSpan ← peekSpan
      let name ← fieldName
      if (← peek) = some (.mark .lparen) then
        let args ← arguments expr
        suffixes expr start fuel (← node start (.selectApply e name args))
      else
        let feature := Expr.mk nameSpan (.lit (.str name))
        suffixes expr start fuel (← node start (.select e feature))
    | some (.mark .lbracket) =>
      advance
      let feature ← expr
      expectMark .rbracket
      suffixes expr start fuel (← node start (.select e feature))
    | some (.mark .lparen) =>
      let args ← arguments expr
      suffixes expr start fuel (← node start (.apply e args))
    | _ => return e

/-! ### Containers -/

def field (expr : Rule Expr) : Rule (Expr × Expr) := do
  let feature ← expr
  expectMark .colon
  let value ← expr
  return (feature, value)

def record (expr : Rule Expr) (start : Span) (label : Option Expr) : Rule Expr := do
  let fields ← enclosed .lbrace .rbrace (field expr)
  node start (.record label fields)

def tuple (expr : Rule Expr) (start : Span) (label : Option Expr) : Rule Expr := do
  let values ← enclosed .lbracket .rbracket expr
  node start (.tuple label values)

/-- The container that follows an expression as its label, if there is one. -/
def labelled (expr : Rule Expr) (start : Span) (label : Expr) : Rule Expr := do
  if ← eatMark .hash then
    match ← peek with
    | some (.mark .lbrace) => record expr start (some label)
    | some (.mark .lbracket) => tuple expr start (some label)
    | got => fail (.container got)
  else return label

/-! ### Control flow -/

def branch (expr : Rule Expr) : Rule Branch := do
  let cond ← expr
  expectWord .then_
  let body ← sequence expr
  return .mk cond body

/-- A pattern, a guard and the sequence they lead to, introduced by a word. -/
def clause (expr : Rule Expr) (before : Keyword) : Rule Clause := do
  let p ← pattern
  let guard ← optional .when expr
  expectWord before
  let body ← sequence expr
  return .mk p guard body

def conditional (expr : Rule Expr) (start : Span) : Rule Expr := do
  let first ← branch expr
  let rest ← introduced .elseIf (branch expr) (← remaining)
  let otherwise ← optional .else_ (sequence expr)
  expectWord .end_
  node start (.ifElse (first :: rest) otherwise)

def alternatives (expr : Rule Expr) (start : Span) : Rule Expr := do
  let arg ← expr
  let clauses ← introduced .of_ (clause expr .then_) (← remaining)
  if clauses.isEmpty then fail .noClauses
  let otherwise ← optional .else_ (sequence expr)
  expectWord .end_
  node start (.cases arg clauses otherwise)

def whileLoop (expr : Rule Expr) (start : Span) : Rule Expr := do
  let cond ← expr
  expectWord .do_
  let body ← sequence expr
  expectWord .end_
  node start (.whileLoop cond body)

def forLoop (expr : Rule Expr) (start : Span) : Rule Expr := do
  let name ← identifier
  expectWord .in_
  let iter ← expr
  expectWord .do_
  let body ← sequence expr
  expectWord .end_
  node start (.forLoop name iter body)

def attempt (expr : Rule Expr) (start : Span) : Rule Expr := do
  let body ← sequence expr
  let catches ← introduced .catch_ (clause expr .then_) (← remaining)
  let final ← optional .finally_ (sequence expr)
  expectWord .end_
  node start (.attempt body catches final)

def procedure (expr : Rule Expr) (start : Span)
    (form : Option String → List String → List Expr → Form) : Rule Expr := do
  let name ← match ← peek with
    | some (.ident name) =>
      advance
      pure (some name)
    | _ => pure none
  let ps ← params
  expectWord .in_
  let body ← sequence expr
  expectWord .end_
  node start (form name ps body)

def handler (expr : Rule Expr) : Rule ActorItem := do
  let kind ← match ← peek with
    | some (.word .ask) => pure HandlerKind.ask
    | some (.word .tell) => pure HandlerKind.tell
    | got => fail (.handlerKind got)
  advance
  let c ← clause expr .in_
  expectWord .end_
  return .handler kind c

def actorItems (expr : Rule Expr) : (fuel : Nat) → Rule (List ActorItem)
  | 0 => return []
  | fuel + 1 => do
    match ← peek with
    | some (.word .end_) => return []
    | some (.word .handle) =>
      advance
      let item ← handler expr
      let rest ← actorItems expr fuel
      return item :: rest
    | none => fail (.token (.word .end_) none)
    | some _ =>
      let e ← sentence expr
      let rest ← actorItems expr fuel
      return .sentence e :: rest

def actor (expr : Rule Expr) (start : Span) : Rule Expr := do
  let name ← identifier
  let ps ← params
  expectWord .in_
  let items ← actorItems expr ((← remaining) + 1)
  expectWord .end_
  node start (.actor name ps items)

/-! ### Whole expressions -/

/-- The construct that a reserved word introduces. -/
def construct? (expr : Rule Expr) (start : Span) : Keyword → Option (Rule Expr)
  | .begin => some do
    let body ← sequence expr
    expectWord .end_
    node start (.block body)
  | .if_ => some (conditional expr start)
  | .case_ => some (alternatives expr start)
  | .while_ => some (whileLoop expr start)
  | .for_ => some (forLoop expr start)
  | .try_ => some (attempt expr start)
  | .func => some (procedure expr start .func)
  | .proc => some (procedure expr start .proc)
  | .actor => some (actor expr start)
  | .return_ => some do
    if ← atSequenceEnd then node start (.ret none)
    else
      let value ← expr
      node start (.ret (some value))
  | .break_ => some (node start .brk)
  | .continue_ => some (node start .cont)
  | .skip => some (node start .skip)
  | .throw => some do
    let value ← expr
    node start (.throw value)
  | _ => none

def primary (expr : Rule Expr) : Rule Expr := do
  let start ← peekSpan
  match ← literal? with
  | some l => labelled expr start (← node start (.lit l))
  | none => match ← peek with
    | some (.ident name) =>
      advance
      labelled expr start (← node start (.ident name))
    | some (.mark .lbrace) => record expr start none
    | some (.mark .lbracket) => tuple expr start none
    | some (.mark .lparen) =>
      advance
      let inner ← expr
      expectMark .rparen
      return inner
    | some (.word k) => match construct? expr start k with
      | some rule =>
        advance
        rule
      | none => fail (.expression (some (.word k)))
    | got => fail (.expression got)

def suffixed (expr : Rule Expr) : Rule Expr := do
  let start ← peekSpan
  let e ← primary expr
  suffixes expr start (← remaining) e

/-- An expression, given the rule for the expressions inside it. -/
def exprOf (expr : Rule Expr) : Rule Expr :=
  binaryBelow (do unary (suffixed expr) (← remaining)) 5

def exprAt : (depth : Nat) → Rule Expr
  | 0 => do
    let got ← peek
    fail (.expression got)
  | depth + 1 => exprOf (exprAt depth)

def programAt (depth : Nat) : Rule Program := do
  let body ← sequence (exprAt depth)
  match ← peek with
  | none => return ⟨body⟩
  | some t => fail (.topLevel t)

def program : Rule Program := do
  programAt (← remaining)

end Rule

def Program.ofTokens (tokens : List Lexeme) : Except ParseError Program :=
  (Rule.program.run ⟨0, .unknown, tokens⟩).map Prod.fst

end ActorLang
