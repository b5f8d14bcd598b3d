import ActorLang.Store.Value

/-!
# Records

A record has an optional label and fields in the order of their features.  A tuple is a record
over the features `0, 1, …`.
-/

namespace ActorLang

/-- A record, its fields in the order of features. -/
structure Record where
  label : Option Feature := none
  fields : List (Feature × Leaf) := []
  deriving DecidableEq, Inhabited

namespace Record

/-- The first feature that is the same as the next one. -/
def repeated? : List (Feature × Leaf) → Option Feature
  | a :: b :: rest => if a.1 = b.1 then some a.1 else repeated? (b :: rest)
  | _ => none

def sortFields (fields : List (Feature × Leaf)) : List (Feature × Leaf) :=
  fields.mergeSort fun a b => a.1.compare b.1 != .gt

/-- The record with these fields, or the least feature that occurs twice. -/
def ofFields (label : Option Feature) (fields : List (Feature × Leaf)) : Except Feature Record :=
  let sorted := sortFields fields
  match repeated? sorted with
  | some f => .error f
  | none => .ok ⟨label, sorted⟩

def position (i : Nat) : Feature := .int32 (Int32.ofNat i)

def tuple (label : Option Feature) (values : List Leaf) : Record :=
  ⟨label, values.zipIdx.map fun (v, i) => (position i, v)⟩

def get? (r : Record) (f : Feature) : Option Leaf :=
  (r.fields.find? (·.1 = f)).map (·.2)

def size (r : Record) : Nat := r.fields.length

def isTuple (r : Record) : Bool :=
  r.fields.zipIdx.all fun ((f, _), i) => decide (f = position i)

def insertField (f : Feature) (v : Leaf) : List (Feature × Leaf) → List (Feature × Leaf)
  | [] => [(f, v)]
  | (g, w) :: rest => match g.compare f with
    | .lt => (g, w) :: insertField f v rest
    | .eq => (g, v) :: rest
    | .gt => (f, v) :: (g, w) :: rest

/-- The record with every field of the other one added, or in place of its own. -/
def assign (r other : Record) : Record :=
  { r with fields := other.fields.foldl (fun fields (f, v) => insertField f v fields) r.fields }

/-- The record of a map.  An entry replaces earlier ones with the same feature. -/
def ofMap (label : Option Feature) (entries : List (Feature × Leaf)) : Record :=
  assign ⟨label, []⟩ ⟨none, entries⟩

def withValues (r : Record) (values : List Leaf) : Record :=
  { r with fields := (r.fields.map (·.1)).zip values }

def error (name message : String) : Record :=
  ⟨some (.str "error"),
    [(.str "message", .lit (.str message)), (.str "name", .lit (.str name))]⟩

def errorName? (r : Record) : Option String :=
  if r.label = some (.str "error") then
    match r.get? (.str "name") with
    | some (.scalar (.lit (.str name))) => some name
    | _ => none
  else none

end Record

end ActorLang
