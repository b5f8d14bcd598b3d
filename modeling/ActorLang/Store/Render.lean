import ActorLang.Store.Unseen

/-!
# The text of values

Unbound variables are written `_`.  A record inside itself is written `<<circular>>`.
-/

namespace ActorLang

/-- The text of a character after `&`: only line breaks and tabs are escaped. -/
def valueChar (c : Char) : List Char :=
  match c with
  | '\n' => ['\\', 'n']
  | '\t' => ['\\', 't']
  | '\r' => ['\\', 'r']
  | c => [c]

def Scalar.render : Scalar → String
  | lit l => l.renderWith valueChar
  | token n => "<<token " ++ toString n ++ ">>"
  | proc _ => "<<proc>>"
  | actorCfgtr _ => "<<actor_cfgtr>>"
  | actorCfg _ => "<<actor_cfg>>"
  | actor id => "<<actor " ++ toString id ++ ">>"
  | cell _ => "<<cell>>"

def Feature.render (f : Feature) : String := f.toScalar.render

def Record.renderWith (r : Record) (texts : List String) : String :=
  let label := match r.label with
    | some l => l.render ++ "#"
    | none => ""
  if r.isTuple && !r.fields.isEmpty then
    label ++ "[" ++ String.intercalate ", " texts ++ "]"
  else
    label ++ "\x7b" ++
      String.intercalate ", " ((r.fields.zip texts).map fun ((f, _), t) => f.render ++ ": " ++ t) ++
      "\x7d"

namespace Store

def renderIn (s : Store) (path : List RecordId) (v : Value) : String :=
  match s.resolve v with
  | .var _ => "_"
  | .datum (.scalar a) => a.render
  | .datum (.record id) =>
    if _h : path.contains id = false ∧ id < s.records.size then
      let r := s.record id
      r.renderWith (r.fields.map fun (_, leaf) => s.renderIn (id :: path) leaf.toValue)
    else "<<circular>>"
termination_by unseen s.recordIds path
decreasing_by exact unseen_cons_lt (List.mem_range.mpr _h.2) _h.1

def render (s : Store) (v : Value) : String := s.renderIn [] v

end Store

end ActorLang
