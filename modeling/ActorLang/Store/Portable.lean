import ActorLang.Store.Render

/-!
# Portable values

A message between actors is a snapshot: everything reachable from a value, copied into a store
of its own.  A value with a cell or an unbound variable in reach has no snapshot.
-/

namespace ActorLang

/-- Why a value cannot leave its actor. -/
inductive NotPortable where
  | unbound
  | cell
  deriving DecidableEq

def NotPortable.message : NotPortable → String
  | unbound => "an unbound variable cannot leave its actor"
  | cell => "a cell cannot leave its actor"

/-- A value with a store of its own. -/
structure Portable where
  store : Store
  value : Value
  deriving Inhabited

namespace Store

/-- A thing to look at when a value is copied. -/
inductive Visit where
  | var (v : VarId)
  | cell
  /-- The end of what a variable is bound to. -/
  | close (v : VarId)

def captured (s : Store) (id : ProcId) : List VarId := (s.closure id).env.map (·.2)

def scalarVisits (s : Store) : Scalar → List Visit
  | .proc (.closure id) => (s.captured id).map .var
  | .actorCfgtr id => (s.captured id).map .var
  | .actorCfg id => (s.captured (s.cfg id).cfgtr ++ (s.cfg id).args).map .var
  | .cell _ => [.cell]
  | _ => []

def leafVisits (s : Store) : Leaf → List Visit
  | .var v => [.var v]
  | .scalar a => s.scalarVisits a

def datumVisits (s : Store) : Datum → List Visit
  | .scalar a => s.scalarVisits a
  | .record id => (s.record id).fields.flatMap fun (_, leaf) => s.leafVisits leaf

def valueVisits (s : Store) : Value → List Visit
  | .var v => [.var v]
  | .datum d => s.datumVisits d

/-- What a search for the variables that a value reaches has come to. -/
structure Search where
  /-- The variables reached, in preorder and last first. -/
  found : List VarId
  /-- Those of them that the search was still inside of when it failed. -/
  opened : List VarId := []
  failure : Option NotPortable := none

/-- The search fails with these things still to be looked at. -/
def Search.fail (found : List VarId) (rest : List Visit) (reason : NotPortable) : Search where
  found
  opened := rest.filterMap fun
    | .close v => some v
    | _ => none
  failure := some reason

/-- Searches for the variables that `work` reaches, after those of `found`. -/
def reach (s : Store) (found : List VarId) : (work : List Visit) → Search
  | [] => { found }
  | .cell :: rest => .fail found rest .cell
  | .close _ :: rest => s.reach found rest
  | .var v :: rest =>
    if found.contains (s.root v) then s.reach found rest
    else match _h : s.slots[s.root v]? with
      | some (.bound d) =>
        s.reach (s.root v :: found) (s.datumVisits d ++ .close (s.root v) :: rest)
      | _ => .fail found rest .unbound
termination_by work => (unseen s.varIds found, work.length)
decreasing_by
  · apply Prod.Lex.right
    simp
  · apply Prod.Lex.right
    simp
  · apply Prod.Lex.left
    apply unseen_cons_lt
    · have := (Array.getElem?_eq_some_iff.mp _h).1
      simp [varIds, this]
    · simp_all

/-- Where the copies of variables are: the variables in the order of their copies, and the place
of the first copy. -/
structure Renaming where
  vars : List VarId
  base : VarId

def Renaming.apply (ren : Renaming) (s : Store) (v : VarId) : VarId :=
  ren.base + ren.vars.idxOf (s.root v)

def copyClosure (s : Store) (ren : Renaming) (id : ProcId) (out : Store) : ProcId × Store :=
  let c := s.closure id
  out.newClosure { c with env := c.env.map fun (name, v) => (name, ren.apply s v) }

def copyScalar (s : Store) (ren : Renaming) (a : Scalar) (out : Store) : Scalar × Store :=
  match a with
  | .proc (.closure id) =>
    let (id, out) := s.copyClosure ren id out
    (.proc (.closure id), out)
  | .actorCfgtr id =>
    let (id, out) := s.copyClosure ren id out
    (.actorCfgtr id, out)
  | .actorCfg id =>
    let (cfgtr, out) := s.copyClosure ren (s.cfg id).cfgtr out
    let (id, out) := out.newCfg ⟨cfgtr, (s.cfg id).args.map (ren.apply s)⟩
    (.actorCfg id, out)
  | a => (a, out)

def copyFields (s : Store) (ren : Renaming) :
    List (Feature × Leaf) → Store → List (Feature × Leaf) × Store
  | [], out => ([], out)
  | (f, .var v) :: rest, out =>
    let (fields, out) := s.copyFields ren rest out
    ((f, .var (ren.apply s v)) :: fields, out)
  | (f, .scalar a) :: rest, out =>
    let (a, out) := s.copyScalar ren a out
    let (fields, out) := s.copyFields ren rest out
    ((f, .scalar a) :: fields, out)

def copyDatum (s : Store) (ren : Renaming) (d : Datum) (out : Store) : Datum × Store :=
  match d with
  | .scalar a =>
    let (a, out) := s.copyScalar ren a out
    (.scalar a, out)
  | .record id =>
    let (fields, out) := s.copyFields ren (s.record id).fields out
    let (id, out) := out.newRecord ⟨(s.record id).label, fields⟩
    (.record id, out)

/-- Copies what variables of `s` are bound to into `out`, a variable for each.  The copies of
those in `opened` are unbound. -/
def copyVars (s : Store) (ren : Renaming) (opened : List VarId) : List VarId → Store → Store
  | [], out => out
  | v :: rest, out =>
    if opened.contains v then s.copyVars ren opened rest (out.newSlot .unbound).2
    else
      let (d, out) := s.copyDatum ren ((s.datum? v).getD default) out
      s.copyVars ren opened rest (out.newSlot (.bound d)).2

/-- Copies a value of `s` and all that it reaches into `out`.  What was copied before a failure
stays. -/
def copyInto (s : Store) (v : Value) (out : Store) : Except NotPortable Value × Store :=
  let search := s.reach [] (s.valueVisits v)
  let ren : Renaming := ⟨search.found.reverse, out.slots.size⟩
  let out := s.copyVars ren search.opened ren.vars out
  match search.failure, v with
  | some e, _ => (.error e, out)
  | none, .var v => (.ok (.var (ren.apply s v)), out)
  | none, .datum d =>
    let (d, out) := s.copyDatum ren d out
    (.ok (.datum d), out)

def exportValue (s : Store) (v : Value) : Except NotPortable Portable :=
  match s.copyInto v {} with
  | (.ok value, store) => .ok ⟨store, value⟩
  | (.error e, _) => .error e

def importValue (s : Store) (p : Portable) : Except NotPortable Value × Store :=
  p.store.copyInto p.value s

end Store

namespace Portable

def error (name message : String) : Portable :=
  let (id, store) := ({} : Store).newRecord (.error name message)
  ⟨store, .record id⟩

def render (p : Portable) : String := p.store.render p.value

def errorName? (p : Portable) : Option String := p.store.errorName? p.value

end Portable

end ActorLang
