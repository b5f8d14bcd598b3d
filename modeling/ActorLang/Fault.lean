import ActorLang.Store.Unify
import ActorLang.Store.Portable

/-!
# Faults

What can go wrong while a program runs, apart from what it throws itself.  A fault is thrown as a
record with a name, by which programs tell faults apart, and a message.
-/

namespace ActorLang

/-- Something that went wrong while a program ran. -/
inductive Fault where
  /-- A primitive has no meaning for these types. -/
  | undefined (op : Kernel.BinaryPrim) (left right : String)
  | negateUndefined (type : String)
  | conditionType (type : String)
  | duplicateFeature (f : Feature)
  | featureType (type : String)
  | patternFeature
  | cellType (type : String)
  | selectType (f : Feature) (type : String)
  | applyType (f : Feature) (type : String)
  | emptyPath
  /-- A builtin expected something else. -/
  | argumentType (expected type : String)
  | sendOutsideActor
  | spawnOutsideActor
  | integerOverflow
  | divisionByZero
  | decimalRange
  | notArithmetic
  | recordSize
  | unification (m : Mismatch)
  | notPortable (reason : NotPortable)
  | identNotFound (name : Kernel.Ident)
  | featureNotFound (f : Feature) (record : String)
  | actorMethod (f : Feature)
  | notProc (value : String)
  | arity (expected got : Nat)
  | cfgArity (expected got : Nat)
  | sendArity (method : Feature) (expected got : Nat)
  | jump (label : Nat)
  | notBound
  | stepLimit (limit : Nat)
  | actorStopped (actor : ActorId)
  deriving DecidableEq

namespace Fault

def name : Fault → String
  | integerOverflow | divisionByZero | decimalRange | notArithmetic | recordSize =>
    "ArithmeticError"
  | unification _ => "UnificationError"
  | notPortable _ => "NotPortableError"
  | identNotFound _ => "IdentNotFoundError"
  | featureNotFound _ _ | actorMethod _ => "FeatureNotFoundError"
  | notProc _ => "NotProcError"
  | arity _ _ | cfgArity _ _ | sendArity _ _ _ => "ArityError"
  | jump _ => "JumpError"
  | notBound => "NotBoundError"
  | stepLimit _ => "StepLimitError"
  | actorStopped _ => "ActorStoppedError"
  | _ => "TypeError"

/-- How many arguments were expected and how many there are. -/
def argumentCount (what : String) (expected got : Nat) : String :=
  what ++ toString expected ++ " arguments, got " ++ toString got

def parts : Fault → List String
  | undefined op left right => [op.name, " is not defined for ", left, " and ", right]
  | negateUndefined type => ["$negate is not defined for ", type]
  | conditionType type => ["an if condition must be a Bool, got ", type]
  | duplicateFeature f => ["duplicate feature ", f.render]
  | featureType type => [type, " cannot be a record feature"]
  | patternFeature => ["a pattern feature must be a feature literal"]
  | cellType type => ["expected a Cell, got ", type]
  | selectType f type => ["cannot select ", f.render, " from ", type]
  | applyType f type => ["cannot apply ", f.render, " on ", type]
  | emptyPath => ["$select_apply needs a feature path"]
  | argumentType expected type => ["expected ", expected, ", got ", type]
  | sendOutsideActor => ["messaging an actor needs the actor runtime"]
  | spawnOutsideActor => ["spawn needs the actor runtime"]
  | integerOverflow => ["integer overflow"]
  | divisionByZero => ["division by zero"]
  | decimalRange => ["decimal overflow or division by zero"]
  | notArithmetic => ["not an arithmetic operator"]
  | recordSize => ["record size exceeds Int32"]
  | unification m => [m.message]
  | notPortable reason => [reason.message]
  | identNotFound name => ["identifier '", name, "' is not declared"]
  | featureNotFound f record => ["feature ", f.render, " not found in ", record]
  | actorMethod f => ["actors answer 'ask' and 'tell', not ", f.render]
  | notProc value => [value, " is not a proc"]
  | arity expected got => [argumentCount "expected " expected got]
  | cfgArity expected got => [argumentCount "cfg expected " expected got]
  | sendArity method expected got => [argumentCount (method.render ++ " takes ") expected got]
  | jump label => ["no $jump_catch(", toString label, ") is active"]
  | notBound => ["variable is not bound"]
  | stepLimit limit => ["exceeded ", toString limit, " steps"]
  | actorStopped actor => ["actor ", toString actor, " has stopped"]

def message (f : Fault) : String := String.join f.parts

def record (f : Fault) : Record := .error f.name f.message

end Fault

end ActorLang
