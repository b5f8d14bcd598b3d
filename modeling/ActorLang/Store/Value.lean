import ActorLang.Literal

/-!
# Values

Values that a program computes with.  Immutable compound values, procedures and cells live in a
store and are named by their place in it, which is also their identity.
-/

namespace ActorLang

/-- The place of a dataflow variable in its store. -/
abbrev VarId := Nat

/-- The place of a mutable cell in its store. -/
abbrev CellId := Nat

/-- The place of a record in its store. -/
abbrev RecordId := Nat

/-- The place of a closure in its store. -/
abbrev ProcId := Nat

/-- The place of an actor configuration in its store. -/
abbrev CfgId := Nat

/-- The number of an actor. -/
abbrev ActorId := Nat

/-- A label or feature of a record. -/
inductive Feature where
  | bool (value : Bool)
  | int32 (value : Int32)
  | int64 (value : Int64)
  | char (value : Char)
  | str (value : String)
  | null
  | eof
  | token (number : Nat)
  deriving DecidableEq, Inhabited

namespace Feature

/-- The place of a kind of feature in the order of features. -/
def rank : Feature → Nat
  | bool _ => 0
  | int32 _ => 1
  | int64 _ => 2
  | char _ => 3
  | str _ => 4
  | null => 5
  | eof => 6
  | token _ => 7

/-- The order of features: by kind, and by value within a kind. -/
def compare : Feature → Feature → Ordering
  | bool a, bool b => Ord.compare a b
  | int32 a, int32 b => Ord.compare a.toInt b.toInt
  | int64 a, int64 b => Ord.compare a.toInt b.toInt
  | char a, char b => Ord.compare a.toNat b.toNat
  | str a, str b => Ord.compare a b
  | token a, token b => Ord.compare a b
  | a, b => Ord.compare a.rank b.rank

/-- The feature of a literal; floats and decimals have none. -/
def ofLiteral? : Literal → Option Feature
  | .bool b => some (bool b)
  | .int32 n => some (int32 n)
  | .int64 n => some (int64 n)
  | .char c => some (char c)
  | .str s => some (str s)
  | .null => some null
  | .eof => some eof
  | .flt32 _ | .flt64 _ | .dec128 _ => none

end Feature

/-- The procedures that every program can use. -/
inductive Builtin where
  | cellNew | recAssign | recSize | tokenNew | range | spawn | assertBound
  deriving DecidableEq

def Builtin.arity : Builtin → Nat
  | cellNew => 2
  | recAssign => 3
  | recSize => 2
  | tokenNew => 1
  | range => 3
  | spawn => 2
  | assertBound => 1

/-- A procedure: a closure of the store, a builtin of the machine of an actor, or an iterator
over a range of integers. -/
inductive ProcRef where
  | closure (id : ProcId)
  | builtin (owner : ActorId) (name : Builtin)
  | iterator (index : Nat)
  deriving DecidableEq

/-- A value without fields. -/
inductive Scalar where
  | lit (value : Literal)
  | token (number : Nat)
  | proc (p : ProcRef)
  | actorCfgtr (id : ProcId)
  | actorCfg (id : CfgId)
  | actor (id : ActorId)
  | cell (id : CellId)
  deriving DecidableEq, Inhabited

/-- What a field or a cell holds. -/
inductive Leaf where
  | var (id : VarId)
  | scalar (s : Scalar)
  deriving DecidableEq, Inhabited

/-- A determined value. -/
inductive Datum where
  | scalar (s : Scalar)
  | record (id : RecordId)
  deriving DecidableEq, Inhabited

/-- A determined value or a variable. -/
inductive Value where
  | var (id : VarId)
  | datum (d : Datum)
  deriving DecidableEq, Inhabited

namespace Value

def scalar (s : Scalar) : Value := datum (.scalar s)

def record (id : RecordId) : Value := datum (.record id)

def lit (l : Literal) : Value := scalar (.lit l)

end Value

def Leaf.toValue : Leaf → Value
  | var v => .var v
  | scalar s => .scalar s

def Leaf.lit (l : Literal) : Leaf := scalar (.lit l)

namespace Literal

def typeName : Literal → String
  | bool _ => "Bool"
  | int32 _ => "Int32"
  | int64 _ => "Int64"
  | flt32 _ => "Flt32"
  | flt64 _ => "Flt64"
  | dec128 _ => "Dec128"
  | char _ => "Char"
  | str _ => "Str"
  | null => "Null"
  | eof => "Eof"

/-- Equality of literals as values: floats by the rules of floating point, decimals by value. -/
def same : Literal → Literal → Bool
  | flt32 x, flt32 y => x.equal y
  | flt64 x, flt64 y => x.equal y
  | dec128 x, dec128 y => x.cmp y == .eq
  | x, y => decide (x = y)

end Literal

namespace Scalar

def typeName : Scalar → String
  | lit l => l.typeName
  | token _ => "Token"
  | proc _ => "Proc"
  | actorCfgtr _ => "ActorCfgtr"
  | actorCfg _ => "ActorCfg"
  | actor _ => "ActorRef"
  | cell _ => "Cell"

/-- Equality of scalars as values.  Integers of different widths differ. -/
def same : Scalar → Scalar → Bool
  | lit a, lit b => a.same b
  | a, b => decide (a = b)

def feature? : Scalar → Option Feature
  | lit l => Feature.ofLiteral? l
  | token n => some (.token n)
  | _ => none

end Scalar

def Feature.toScalar : Feature → Scalar
  | bool b => .lit (.bool b)
  | int32 n => .lit (.int32 n)
  | int64 n => .lit (.int64 n)
  | char c => .lit (.char c)
  | str s => .lit (.str s)
  | null => .lit .null
  | eof => .lit .eof
  | token n => .token n

namespace Datum

def typeName : Datum → String
  | scalar s => s.typeName
  | record _ => "Rec"

/-- The feature that a value is, if it is one. -/
def feature? : Datum → Option Feature
  | scalar s => s.feature?
  | record _ => none

end Datum

def Value.typeName : Value → String
  | var _ => "Var"
  | datum d => d.typeName

end ActorLang
