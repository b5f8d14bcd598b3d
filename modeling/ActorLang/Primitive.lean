import ActorLang.Fault

/-!
# Arithmetic and comparison

The primitives on determined values.  Integers mix with integers and floats with floats, at the
wider of the two widths.  Integer arithmetic fails rather than wrap, floats follow the rules of
floating point.
-/

namespace ActorLang

open Kernel (BinaryPrim)

/-- Two numbers of one type. -/
inductive NumberPair where
  | int32 (x y : Int32)
  | int64 (x y : Int64)
  | flt32 (x y : Binary32)
  | flt64 (x y : Binary64)
  | dec128 (x y : Decimal)

def NumberPair.ofLiterals? : Literal → Literal → Option NumberPair
  | .int32 x, .int32 y => some (int32 x y)
  | .int32 x, .int64 y => some (int64 x.toInt64 y)
  | .int64 x, .int32 y => some (int64 x y.toInt64)
  | .int64 x, .int64 y => some (int64 x y)
  | .flt32 x, .flt32 y => some (flt32 x y)
  | .flt32 x, .flt64 y => some (flt64 x.convert y)
  | .flt64 x, .flt32 y => some (flt64 x y.convert)
  | .flt64 x, .flt64 y => some (flt64 x y)
  | .dec128 x, .dec128 y => some (dec128 x y)
  | _, _ => none

namespace Primitive

/-- The exact result of an integer operation; comparisons have none. -/
def exactResult? (op : BinaryPrim) (x y : Int) : Option Int :=
  match op with
  | .add => some (x + y)
  | .sub => some (x - y)
  | .mult => some (x * y)
  | .div => some (x.tdiv y)
  | .mod => some (x.tmod y)
  | _ => none

/-- Whether a remainder has a quotient between the bounds; other operations always pass. -/
def quotientFits (op : BinaryPrim) (x y : Int) (fits : Int → Bool) : Bool :=
  match op with
  | .mod => fits (x.tdiv y)
  | _ => true

def integer (op : BinaryPrim) (fits : Int → Bool) (x y : Int) : Except Fault Int :=
  if (op = .div ∨ op = .mod) ∧ y = 0 then .error .divisionByZero
  else match exactResult? op x y with
    | some r => if fits r && quotientFits op x y fits then .ok r else .error .integerOverflow
    | none => .error .integerOverflow

def float {f : BinaryFormat} (op : BinaryPrim) (x y : Binary f) : Except Fault (Binary f) :=
  match op with
  | .add => .ok (x.add y)
  | .sub => .ok (x.sub y)
  | .mult => .ok (x.mul y)
  | .div => .ok (x.div y)
  | .mod => .ok (x.rem y)
  | _ => .error .notArithmetic

def decimal? (op : BinaryPrim) (x y : Decimal) : Option (Option Decimal) :=
  match op with
  | .add => some (x.add? y)
  | .sub => some (x.sub? y)
  | .mult => some (x.mul? y)
  | .div => some (x.div? y)
  | .mod => some (x.rem? y)
  | _ => none

/-- The arithmetic of literals; strings can be added. -/
def arithLiterals (op : BinaryPrim) (a b : Literal) : Except Fault Literal :=
  let undefined : Fault := .undefined op a.typeName b.typeName
  match op, a, b with
  | .add, .str x, .str y => .ok (.str (x ++ y))
  | op, a, b => match NumberPair.ofLiterals? a b with
    | none => .error undefined
    | some (.int32 x y) =>
      return .int32 (Int32.ofInt (← integer op fitsInt32 x.toInt y.toInt))
    | some (.int64 x y) =>
      return .int64 (Int64.ofInt (← integer op fitsInt64 x.toInt y.toInt))
    | some (.flt32 x y) => return .flt32 (← float op x y)
    | some (.flt64 x y) => return .flt64 (← float op x y)
    | some (.dec128 x y) => match decimal? op x y with
      | none => .error undefined
      | some none => .error .decimalRange
      | some (some r) => .ok (.dec128 r)

/-- The order of literals of one family: numbers, strings or characters.  A comparison with a
float that is no number has no order. -/
def order? : Literal → Literal → Option (Option Ordering)
  | .str x, .str y => some (some (compare x y))
  | .char x, .char y => some (some (compare x.toNat y.toNat))
  | a, b => (NumberPair.ofLiterals? a b).map fun
    | .int32 x y => some (compare x.toInt y.toInt)
    | .int64 x y => some (compare x.toInt y.toInt)
    | .flt32 x y => x.compare? y
    | .flt64 x y => x.compare? y
    | .dec128 x y => some (x.cmp y)

/-- Whether an order satisfies a comparison. -/
def satisfies? (op : BinaryPrim) (o : Ordering) : Option Bool :=
  match op with
  | .lt => some (o == .lt)
  | .gt => some (o == .gt)
  | .le => some (o != .gt)
  | .ge => some (o != .lt)
  | _ => none

def compareLiterals (op : BinaryPrim) (a b : Literal) : Except Fault Bool :=
  let undefined : Fault := .undefined op a.typeName b.typeName
  match order? a b with
  | none => .error undefined
  | some none => .ok false
  | some (some o) => match satisfies? op o with
    | some r => .ok r
    | none => .error undefined

end Primitive

open Primitive

def arith (op : BinaryPrim) (a b : Datum) : Except Fault Literal :=
  match a, b with
  | .scalar (.lit x), .scalar (.lit y) => arithLiterals op x y
  | a, b => .error (.undefined op a.typeName b.typeName)

def compareData (op : BinaryPrim) (a b : Datum) : Except Fault Bool :=
  match a, b with
  | .scalar (.lit x), .scalar (.lit y) => compareLiterals op x y
  | a, b => .error (.undefined op a.typeName b.typeName)

def negate (a : Datum) : Except Fault Literal :=
  match a with
  | .scalar (.lit (.int32 n)) =>
    if n = Int32.minValue then .error .integerOverflow else .ok (.int32 (-n))
  | .scalar (.lit (.int64 n)) =>
    if n = Int64.minValue then .error .integerOverflow else .ok (.int64 (-n))
  | .scalar (.lit (.flt32 x)) => .ok (.flt32 x.neg)
  | .scalar (.lit (.flt64 x)) => .ok (.flt64 x.neg)
  | .scalar (.lit (.dec128 x)) => .ok (.dec128 x.neg)
  | a => .error (.negateUndefined a.typeName)

end ActorLang
