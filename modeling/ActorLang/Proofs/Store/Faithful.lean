import Mathlib.Data.List.Permutation
import ActorLang.Proofs.Store.Printing
import ActorLang.Proofs.Store.Views

/-!
# Snapshots keep the structure of values

What can be seen of a value is its shape and its parts: the fields of a record, the variables that a
procedure captures and the arguments of a configuration.  A copy has the shape of the original, and
its parts are the copies of the parts, so that a path through both, round any cycle, ends at the
same shape.
-/

namespace ActorLang

open List

/-! ### Shapes and parts -/

/-- What can be seen of a value without going into its parts. -/
inductive Shape where
  | unbound
  | atom (a : Scalar)
  | record (label : Option Feature) (features : List Feature)
  | proc (definition : Definition)
  | actorCfgtr (definition : Definition)
  | actorCfg (definition : Definition) (arity : Nat)

/-- A step from a value to one of its parts. -/
inductive Step where
  | field (f : Feature)
  | captured (i : Nat)
  | argument (i : Nat)

variable {a p q : Scalar} {id id' : RecordId} {d e : Datum} {r r' : Record} {vars : List VarId}
  {v x : VarId} {ren : Renaming}

namespace Store

def datumShape (s : Store) : Datum → Shape
  | .record id => .record (s.record id).label ((s.record id).fields.map (·.1))
  | .scalar (.proc (.closure id)) => .proc (s.closure id).definition
  | .scalar (.actorCfgtr id) => .actorCfgtr (s.closure id).definition
  | .scalar (.actorCfg id) =>
    .actorCfg (s.closure (s.cfg id).cfgtr).definition (s.cfg id).args.length
  | .scalar a => .atom a

def shape (s : Store) (v : Value) : Shape :=
  match s.resolve v with
  | .var _ => .unbound
  | .datum d => s.datumShape d

/-- The variables that a procedure, or the procedure of a configuration, captures. -/
def capturedBy (s : Store) : Datum → List VarId
  | .scalar (.proc (.closure id)) | .scalar (.actorCfgtr id) => s.captured id
  | .scalar (.actorCfg id) => s.captured (s.cfg id).cfgtr
  | _ => []

def argumentsOf (s : Store) : Datum → List VarId
  | .scalar (.actorCfg id) => (s.cfg id).args
  | _ => []

/-- The part of a datum to which a step leads. -/
def part? (s : Store) (d : Datum) : Step → Option Value
  | .field f => match d with
    | .record id => ((s.record id).get? f).map Leaf.toValue
    | .scalar _ => none
  | .captured i => (s.capturedBy d)[i]?.map .var
  | .argument i => (s.argumentsOf d)[i]?.map .var

def at? (s : Store) (v : Value) : List Step → Option Value
  | [] => some v
  | step :: path => match s.resolve v with
    | .var _ => none
    | .datum d => (s.part? d step).bind (s.at? · path)

def shapeAt? (s : Store) (v : Value) (path : List Step) : Option Shape :=
  (s.at? v path).map s.shape

/-! ### A copy looks like the original -/

namespace ScalarCopy

variable {s t : Store}
variable {id id' cfgtr : ProcId}

section

variable (h : t.procs[id']? = some (ren.closure s (s.closure id)))

include h

theorem closure_eq :
  t.closure id' = ren.closure s (s.closure id)
  := by
  rw [Store.closure, Array.getD_eq_getD_getElem?, h, Option.getD_some]

theorem definition_eq :
  (t.closure id').definition = (s.closure id).definition
  := by
  rw [closure_eq h, Renaming.definition_closure]

theorem captured_eq :
  t.captured id' = (s.captured id).map (ren.apply s)
  := by
  rw [captured, closure_eq h]
  simp [captured, Renaming.closure]

end

theorem cfg_eq {id id' : CfgId} (h : t.cfgs[id']? = some ⟨cfgtr, (s.cfg id).args.map (ren.apply s)⟩) :
  t.cfg id' = ⟨cfgtr, (s.cfg id).args.map (ren.apply s)⟩
  := by
  rw [cfg, Array.getD_eq_getD_getElem?, h, Option.getD_some]

end ScalarCopy

/-- What is to be looked at in a copy. -/
def Renaming.visit (ren : Renaming) (s : Store) : Visit → Visit
  | .var v => .var (ren.apply s v)
  | .cell => .cell
  | .close v => .close v

section Copy

variable {s t : Store}

theorem datumShape_plain (h : a.isPlain = true) (s : Store) :
  s.datumShape (.scalar a) = .atom a ∧ s.capturedBy (.scalar a) = [] ∧ s.argumentsOf (.scalar a) = []
  := by
  cases a with
  | proc p =>
    cases p with
    | closure => cases h
    | builtin | iterator => exact ⟨rfl, rfl, rfl⟩
  | actorCfgtr | actorCfg => cases h
  | lit | token | actor | cell => exact ⟨rfl, rfl, rfl⟩

theorem DatumCopy.record_eq (h : s.DatumCopy ren t (.record id) (.record id')) :
  (t.record id').label = (s.record id).label ∧ Forall₂ (s.FieldCopy ren t) (s.record id).fields (t.record id').fields
  := by
  cases h with
  | record hrecord hfields =>
    rw [Store.record, Array.getD_eq_getD_getElem?, hrecord]
    exact ⟨rfl, hfields⟩

theorem features_eq {fields fields' : List (Feature × Leaf)} (h : Forall₂ (s.FieldCopy ren t) fields fields') :
  fields'.map (·.1) = fields.map (·.1)
  := by
  induction h with
  | nil => rfl
  | cons hfield _ ih => rw [map_cons, map_cons, ih, hfield.1]

theorem DatumCopy.shape_eq (h : s.DatumCopy ren t d e) :
  t.datumShape e = s.datumShape d
  := by
  cases h with
  | record hrecord hfields =>
    obtain ⟨hlabel, hfields⟩ := (DatumCopy.record hrecord hfields).record_eq
    rw [datumShape, datumShape, hlabel, features_eq hfields]
  | scalar h =>
    cases h with
    | plain h => rw [(datumShape_plain h t).1, (datumShape_plain h s).1]
    | closure h | actorCfgtr h => simp only [datumShape, ScalarCopy.definition_eq h]
    | actorCfg hcfgtr hcfg =>
      simp only [datumShape, ScalarCopy.cfg_eq hcfg, ScalarCopy.definition_eq hcfgtr, length_map]

theorem map_var (s : Store) (ren : Renaming) (vars : List VarId) :
  (vars.map (ren.apply s)).map Visit.var = (vars.map Visit.var).map (ren.visit s)
  := by
  rw [map_map, map_map]
  rfl

theorem ScalarCopy.visits_eq {b : Scalar} (h : s.ScalarCopy ren t a b) :
  t.scalarVisits b = (s.scalarVisits a).map (ren.visit s)
  := by
  cases h with
  | @plain a h =>
    cases a with
    | proc p => cases p <;> first | rfl | cases h
    | actorCfgtr | actorCfg => cases h
    | _ => rfl
  | closure h | actorCfgtr h =>
    rw [scalarVisits, scalarVisits, ScalarCopy.captured_eq h, map_var]
  | actorCfg hcfgtr hcfg =>
    rw [scalarVisits, scalarVisits, ScalarCopy.cfg_eq hcfg, ScalarCopy.captured_eq hcfgtr, ← map_append, map_var]

theorem LeafCopy.visits_eq {a b : Leaf} (h : s.LeafCopy ren t a b) :
  t.leafVisits b = (s.leafVisits a).map (ren.visit s)
  := by
  cases h with
  | var => rfl
  | scalar h => exact h.visits_eq

theorem DatumCopy.visits_eq (h : s.DatumCopy ren t d e) :
  t.datumVisits e = (s.datumVisits d).map (ren.visit s)
  := by
  cases h with
  | scalar h => exact h.visits_eq
  | record hrecord hfields =>
    obtain ⟨-, hfields⟩ := (DatumCopy.record hrecord hfields).record_eq
    rw [datumVisits, datumVisits]
    generalize (s.record _).fields = fields at hfields
    generalize (t.record _).fields = fields' at hfields
    induction hfields with
    | nil => rfl
    | cons hfield _ ih =>
      rw [flatMap_cons, flatMap_cons, map_append, ih]
      exact congrArg (· ++ _) hfield.2.visits_eq

end Copy

/-! ### Copies of values -/

/-- The variables of a renaming are bound, with all that they mention, and `t` has their copies. -/
structure Mirrored (s : Store) (ren : Renaming) (t : Store) : Prop where
  copied : ∀ x ∈ ren.vars, ∃ d e, s.slots[x]? = some (.bound d) ∧
    (∀ visit ∈ s.datumVisits d, s.Settled ren.vars visit) ∧
    t.slots[ren.base + ren.vars.idxOf x]? = some (.bound e) ∧ s.DatumCopy ren t d e

/-- A value of `s` and its copy in `t`. -/
inductive ValueCopy (s : Store) (ren : Renaming) (t : Store) : Value → Value → Prop where
  | var {v : VarId} (h : s.root v ∈ ren.vars) : ValueCopy s ren t (.var v) (.var (ren.apply s v))
  | datum {d e : Datum} (h : s.DatumCopy ren t d e) (hsettled : ∀ visit ∈ s.datumVisits d, s.Settled ren.vars visit) :
      ValueCopy s ren t (.datum d) (.datum e)

section Mirror

variable {s t : Store} {a b : Value}
variable {d e : Datum}

theorem ValueCopy.resolve (ht : s.Mirrored ren t) (h : s.ValueCopy ren t a b) :
  ∃ d e, s.resolve a = .datum d ∧ t.resolve b = .datum e ∧ s.DatumCopy ren t d e ∧
    ∀ visit ∈ s.datumVisits d, s.Settled ren.vars visit
  := by
  cases h with
  | var h =>
    obtain ⟨d, e, hd, hsettled, he, hcopy⟩ := ht.copied _ h
    refine ⟨d, e, ?_, resolve_of_bound he, hcopy, hsettled⟩
    simp only [Store.resolve, hd]
  | datum h hsettled => exact ⟨_, _, rfl, rfl, h, hsettled⟩

theorem ValueCopy.shape_eq (ht : s.Mirrored ren t) (h : s.ValueCopy ren t a b) :
  t.shape b = s.shape a
  := by
  obtain ⟨d, e, hd, he, hcopy, -⟩ := h.resolve ht
  simp only [shape, hd, he, hcopy.shape_eq]

theorem LeafCopy.value {l m : Leaf} (h : s.LeafCopy ren t l m)
    (hsettled : ∀ visit ∈ s.leafVisits l, s.Settled ren.vars visit) :
  s.ValueCopy ren t l.toValue m.toValue
  := by
  cases h with
  | var v => exact .var (hsettled (.var v) (mem_singleton_self _))
  | scalar h => exact .datum (.scalar h) hsettled

theorem DatumCopy.values (h : s.DatumCopy ren t (.record id) (.record id'))
    (hsettled : ∀ visit ∈ s.datumVisits (.record id), s.Settled ren.vars visit) :
  Forall₂ (fun f g => f.1 = g.1 ∧ s.ValueCopy ren t f.2.toValue g.2.toValue) (s.record id).fields (t.record id').fields
  := by
  obtain ⟨-, hfields⟩ := h.record_eq
  rw [forall₂_iff_get] at hfields ⊢
  refine ⟨hfields.1, ?_⟩
  intro i hi hi'
  obtain ⟨hfeature, hleaf⟩ := hfields.2 i hi hi'
  refine ⟨hfeature, hleaf.value ?_⟩
  intro visit hvisit
  exact hsettled visit (mem_flatMap.mpr ⟨_, get_mem _ _, hvisit⟩)

theorem rel_get? {R : Value → Value → Prop}
    (h : Forall₂ (fun f g => f.1 = g.1 ∧ R f.2.toValue g.2.toValue) r.fields r'.fields)
    (f : Feature) :
  Option.Rel R ((r.get? f).map Leaf.toValue) ((r'.get? f).map Leaf.toValue)
  := by
  rw [Record.get?, Record.get?]
  generalize r.fields = fields at h
  generalize r'.fields = fields' at h
  induction h with
  | nil => exact .none
  | @cons field _ _ _ hfield _ ih =>
    rw [List.find?_cons, List.find?_cons, ← hfield.1]
    cases decide (field.1 = f) with
    | true => exact .some hfield.2
    | false => exact ih

theorem rel_getElem? (h : ∀ v ∈ vars, s.root v ∈ ren.vars) (i : Nat) :
  Option.Rel (s.ValueCopy ren t) (vars[i]?.map .var) ((vars.map (ren.apply s))[i]?.map .var)
  := by
  rw [List.getElem?_map]
  cases hv : vars[i]? with
  | none => exact .none
  | some v => exact .some (.var (h v (mem_of_getElem? hv)))

theorem mem_visits_of_captured (h : v ∈ s.capturedBy d) :
  .var v ∈ s.datumVisits d
  := by
  revert h
  fun_cases capturedBy s d
  · exact fun h => mem_map.mpr ⟨v, h, rfl⟩
  · exact fun h => mem_map.mpr ⟨v, h, rfl⟩
  · exact fun h => mem_map.mpr ⟨v, mem_append_left _ h, rfl⟩
  · exact fun h => absurd h not_mem_nil

theorem mem_visits_of_argument (h : v ∈ s.argumentsOf d) :
  .var v ∈ s.datumVisits d
  := by
  revert h
  fun_cases argumentsOf s d
  · exact fun h => mem_map.mpr ⟨v, mem_append_right _ h, rfl⟩
  · exact fun h => absurd h not_mem_nil

theorem DatumCopy.capturedBy_eq (h : s.DatumCopy ren t d e) :
  t.capturedBy e = (s.capturedBy d).map (ren.apply s)
  := by
  cases h with
  | record => rfl
  | scalar h =>
    cases h with
    | plain h =>
      rw [(datumShape_plain h t).2.1, (datumShape_plain h s).2.1]
      rfl
    | closure h | actorCfgtr h => exact ScalarCopy.captured_eq h
    | actorCfg hcfgtr hcfg =>
      simp only [capturedBy, ScalarCopy.cfg_eq hcfg, ScalarCopy.captured_eq hcfgtr]

theorem DatumCopy.argumentsOf_eq (h : s.DatumCopy ren t d e) :
  t.argumentsOf e = (s.argumentsOf d).map (ren.apply s)
  := by
  cases h with
  | record => rfl
  | scalar h =>
    cases h with
    | plain h =>
      rw [(datumShape_plain h t).2.2, (datumShape_plain h s).2.2]
      rfl
    | closure | actorCfgtr => rfl
    | actorCfg _ hcfg => simp only [argumentsOf, ScalarCopy.cfg_eq hcfg]

theorem DatumCopy.rel_part? (h : s.DatumCopy ren t d e)
    (hsettled : ∀ visit ∈ s.datumVisits d, s.Settled ren.vars visit) (step : Step) :
  Option.Rel (s.ValueCopy ren t) (s.part? d step) (t.part? e step)
  := by
  cases step with
  | field f =>
    cases h with
    | scalar => exact .none
    | record hrecord hfields =>
      exact rel_get? ((DatumCopy.record hrecord hfields).values hsettled) f
  | captured i =>
    rw [part?, part?, h.capturedBy_eq]
    exact rel_getElem? (fun v hv => hsettled _ (mem_visits_of_captured hv)) i
  | argument i =>
    rw [part?, part?, h.argumentsOf_eq]
    exact rel_getElem? (fun v hv => hsettled _ (mem_visits_of_argument hv)) i

/-- A path leads from a value and from its copy to a value and its copy. -/
theorem ValueCopy.rel_at? (ht : s.Mirrored ren t) (h : s.ValueCopy ren t a b) (path : List Step) :
  Option.Rel (s.ValueCopy ren t) (s.at? a path) (t.at? b path)
  := by
  induction path generalizing a b with
  | nil => exact .some h
  | cons step _ ih =>
    obtain ⟨d, e, hd, he, hcopy, hsettled⟩ := h.resolve ht
    simp only [at?, hd, he]
    generalize hp : s.part? d step = p
    generalize hq : t.part? e step = q
    have hpart := hcopy.rel_part? hsettled step
    rw [hp, hq] at hpart
    cases hpart with
    | none => exact .none
    | some hpart => exact ih hpart

theorem ValueCopy.shapeAt?_eq (ht : s.Mirrored ren t) (h : s.ValueCopy ren t a b) (path : List Step) :
  t.shapeAt? b path = s.shapeAt? a path
  := by
  have hrel := h.rel_at? ht path
  rw [shapeAt?, shapeAt?]
  generalize s.at? a path = p at hrel
  generalize t.at? b path = q at hrel
  cases hrel with
  | none => rfl
  | some hcopy => rw [Option.map_some, Option.map_some, hcopy.shape_eq ht]

end Mirror

/-! ### Copying a snapshot -/

section Copied

variable {s out t : Store} {v w : Value}

theorem mirrored_copyInto (h : (s.copyInto v out).1 = .ok w) :
  ∃ ren, s.Mirrored ren (s.copyInto v out).2 ∧ s.ValueCopy ren (s.copyInto v out).2 v w
  := by
  have hsearch := s.complete_reach_nil (s.valueVisits v)
  generalize hr : s.reach [] (s.valueVisits v) = r at hsearch
  -- whatever grows out of the copies mirrors the variables that were found
  have hmirror (hnone : r.failure = none) {t : Store} (ht : (s.copyFound r out).ContinuedBy t) :
      s.Mirrored (r.renaming out) t := by
    constructor
    intro x hx
    obtain ⟨hopened, -⟩ := hsearch.settled hnone
    obtain ⟨d, hd, hsettled⟩ := hsearch.finished x (mem_reverse.mp hx) (by simp [hopened])
    obtain ⟨-, -, -, hall⟩ := s.slotCopy_copyVars (r.renaming out) r.opened r.found.reverse out
    obtain ⟨slot, hslot, hcopy⟩ := hall (r.found.reverse.idxOf x) x (List.getElem?_idxOf hx)
    cases slot with
    | unbound => simp [SlotCopy, hopened] at hcopy
    | link => exact hcopy.elim
    | bound e =>
      refine ⟨d, e, hd, ?_, ContinuedBy.getElem?_eq ht.slots hslot, ?_⟩
      · exact fun visit hvisit =>
          (hsettled visit hvisit).mono fun _ h => mem_reverse.mpr h
      · have := hcopy.2.mono ht
        rwa [datum?_of_bound hd] at this
  rcases s.copyInto_cases v out hr with ⟨e, -, hrun⟩ | ⟨hnone, hrun⟩
  · rw [hrun] at h
    cases h
  · rw [hrun] at h ⊢
    cases h
    refine ⟨r.renaming out, hmirror hnone (s.addsContent_copyValue ..).continued, ?_⟩
    have hsettled (visit : Visit) (hvisit : visit ∈ s.valueVisits v) :
        s.Settled (r.renaming out).vars visit :=
      ((hsearch.settled hnone).2 visit hvisit).mono fun _ h => mem_reverse.mpr h
    cases v with
    | var => exact .var (hsettled _ (mem_singleton_self _))
    | datum => exact .datum (s.datumCopy_copyDatum ..).2 hsettled

/-- A search inside of variables that are bound, with all that they mention, does not fail. -/
theorem failure_reach {work : List Visit} (found : List VarId)
    (hvars : ∀ x ∈ vars, s.Finished vars x) (hwork : ∀ visit ∈ work, s.Settled vars visit) :
  (s.reach found work).failure = none
  := by
  fun_induction reach s found work with
  | case1 => rfl
  | case2 => exact (hwork .cell (mem_cons_self ..)).elim
  | case3 _ x _ ih | case4 _ x _ _ ih => exact ih (forall_mem_cons.mp hwork).2
  | case5 _ x _ _ d hd ih =>
    obtain ⟨hx, hrest⟩ := forall_mem_cons.mp hwork
    obtain ⟨_, hd', hall⟩ := hvars _ hx
    rw [hd] at hd'
    cases hd'
    exact ih (forall_mem_append.mpr ⟨hall, forall_mem_cons.mpr ⟨trivial, hrest⟩⟩)
  | case6 _ x _ _ hunbound =>
    obtain ⟨d, hd, -⟩ := hvars _ (hwork (.var x) (mem_cons_self ..))
    exact (hunbound d hd).elim

/-- The copies of the variables of a renaming. -/
def Renaming.copies (ren : Renaming) : List VarId :=
  ren.vars.map fun x => ren.base + ren.vars.idxOf x

theorem Mirrored.settled_var (h : s.Mirrored ren t) (hx : s.root x ∈ ren.vars) :
  t.Settled ren.copies (.var (ren.apply s x))
  := by
  obtain ⟨d, e, -, -, he, -⟩ := h.copied _ hx
  have hroot : t.root (ren.apply s x) = ren.apply s x :=
    (Leads.stop he (by simp)).root_eq
  rw [Settled, hroot]
  exact mem_map.mpr ⟨_, hx, rfl⟩

theorem Mirrored.settled (h : s.Mirrored ren t) {visit : Visit} (hvisit : s.Settled ren.vars visit) :
  t.Settled ren.copies (ren.visit s visit)
  := by
  cases visit with
  | var => exact h.settled_var hvisit
  | cell => exact hvisit.elim
  | close => trivial

theorem Mirrored.settled_of_copy (h : s.Mirrored ren t) (hcopy : s.DatumCopy ren t d e)
    (hsettled : ∀ visit ∈ s.datumVisits d, s.Settled ren.vars visit) :
  ∀ visit ∈ t.datumVisits e, t.Settled ren.copies visit
  := by
  rw [hcopy.visits_eq, forall_mem_map]
  exact fun visit hvisit => h.settled (hsettled visit hvisit)

theorem Mirrored.finished (h : s.Mirrored ren t) :
  ∀ x ∈ ren.copies, t.Finished ren.copies x
  := by
  rw [Renaming.copies, forall_mem_map]
  intro x hx
  obtain ⟨d, e, -, hsettled, he, hcopy⟩ := h.copied x hx
  exact ⟨e, he, h.settled_of_copy hcopy hsettled⟩

theorem ValueCopy.copyInto_ok (ht : s.Mirrored ren t) (h : s.ValueCopy ren t v w) (out : Store) :
  ∃ u, (t.copyInto w out).1 = .ok u
  := by
  have hwork : ∀ visit ∈ t.valueVisits w, t.Settled ren.copies visit := by
    cases h with
    | var h =>
      rw [valueVisits, forall_mem_singleton]
      exact ht.settled_var h
    | datum h hsettled => exact ht.settled_of_copy h hsettled
  have hnone := failure_reach [] ht.finished hwork
  rcases t.copyInto_cases w out rfl with ⟨e, he, -⟩ | ⟨-, hrun⟩
  · rw [hnone] at he
    cases he
  · exact ⟨_, congrArg Prod.fst hrun⟩

end Copied

/-! ### Texts -/

theorem ValueCopy.unfolds {s t : Store} {v w : Value} {tree : Tree} (ht : s.Mirrored ren t)
    (h : s.ValueCopy ren t v w) (hv : s.Unfolds v tree) :
  t.Unfolds w tree
  := by
  induction hv generalizing w with
  | unbound hv =>
    obtain ⟨d, e, hd, -⟩ := h.resolve ht
    cases hv.symm.trans hd
  | @scalar _ p hv =>
    obtain ⟨d, e, hd, he, hcopy, -⟩ := h.resolve ht
    cases hv.symm.trans hd
    cases hcopy with
    | @scalar _ q hcopy =>
      have hrender : q.render = p.render := by cases hcopy <;> rfl
      exact hrender ▸ .scalar he
  | @record v id _ hv _ hlength _ ih =>
    obtain ⟨d, e, hd, he, hcopy, hsettled⟩ := h.resolve ht
    cases hv.symm.trans hd
    cases e with
    | scalar => cases hcopy
    | record id' =>
      obtain ⟨hlabel, hfields⟩ := hcopy.record_eq
      rw [← hlabel, ← features_eq hfields]
      have hvalues : Forall₂ (s.ValueCopy ren t) (s.record id).values (t.record id').values := by
        rw [Record.values, Record.values, forall₂_map_left_iff, forall₂_map_right_iff]
        exact (hcopy.values hsettled).imp fun _ _ h => h.2
      obtain ⟨hsame, hvalues⟩ := forall₂_iff_get.mp hvalues
      refine .record he hcopy.within (hsame.symm.trans hlength) fun p hp => ?_
      obtain ⟨i, hi, rfl⟩ := getElem_of_mem hp
      rw [length_zip, Nat.lt_min] at hi
      have hvalue := hsame ▸ hi.1
      rw [getElem_zip]
      exact ih _ (mem_zip_getElem hvalue hi.2) (hvalues i hvalue hi.1)

/-! ### What arrives is what was sent -/

theorem copyInto_of_exportValue {s : Store} {v : Value} {p : Portable} (h : s.exportValue v = .ok p) :
  s.copyInto v {} = (.ok p.value, p.store)
  := by
  rw [exportValue] at h
  cases hrun : s.copyInto v {} with
  | mk result =>
    rw [hrun] at h
    cases result with
    | error => cases h
    | ok =>
      cases h
      rfl

theorem ValueCopy.within {s t : Store} {v w : Value} (ht : s.Mirrored ren t) (h : s.ValueCopy ren t v w) :
  w.Within t
  := by
  cases h with
  | var hx =>
    obtain ⟨d, e, -, -, he, -⟩ := ht.copied _ hx
    exact (Array.getElem?_eq_some_iff.mp he).1
  | datum hcopy => exact hcopy.within

/-- A snapshot of a value is a copy of it, in a valid store. -/
theorem valueCopy_exportValue {s : Store} {v : Value} {p : Portable} (h : s.exportValue v = .ok p) :
  p.store.Valid ∧ p.value.Within p.store ∧ ∃ ren, s.Mirrored ren p.store ∧ s.ValueCopy ren p.store v p.value
  := by
  have hrun := copyInto_of_exportValue h
  obtain ⟨-, hvalid⟩ := valid_copyInto s v ValidBelow.empty
  obtain ⟨ren, hmirror, hcopy⟩ := mirrored_copyInto (congrArg Prod.fst hrun)
  rw [hrun] at hvalid hmirror hcopy
  exact ⟨hvalid, hcopy.within hmirror, ren, hmirror, hcopy⟩

/-- A value that can be sent arrives in every store, with the shape and the parts that it had: any
path ends at the same shape.  If none of its records is inside of itself its text is the same. -/
theorem shapeAt?_importValue {s : Store} {v : Value} {p : Portable} (hs : s.WellFormed)
    (hv : v.Within s) (h : s.exportValue v = .ok p) (t : Store) :
  ∃ w, (t.importValue p).1 = .ok w ∧
    (∀ path, (t.importValue p).2.shapeAt? w path = s.shapeAt? v path) ∧
    ((∀ id, s.Reaches v (.record id) → ¬ s.Contains id id) →
      (t.importValue p).2.render w = s.render v)
  := by
  obtain ⟨-, -, _, hmirror, hcopy⟩ := valueCopy_exportValue h
  obtain ⟨w, hw⟩ := hcopy.copyInto_ok hmirror t
  obtain ⟨_, hmirror', hcopy'⟩ := mirrored_copyInto hw
  refine ⟨w, hw, ?_, ?_⟩
  · intro path
    exact (hcopy'.shapeAt?_eq hmirror' path).trans (hcopy.shapeAt?_eq hmirror path)
  · intro hacyclic
    have hsent := unfolds_of_not_cyclic hs hv fun ⟨id, hid, hcontains⟩ => hacyclic id hid hcontains
    have harrived := hcopy'.unfolds hmirror' (hcopy.unfolds hmirror hsent)
    exact harrived.render_eq.trans hsent.render_eq.symm

/-- A pair of a procedure and itself, and a pair of a text and the same procedure, which captures
both pairs. -/
def entangled : Store where
  slots := #[.bound (.record 0), .link 2, .bound (.scalar (.proc (.closure 0))), .bound (.record 1)]
  records := #[.tuple none [.var 1, .var 0], .tuple (some (.str "pair")) [.lit (.str "a"), .var 2]]
  procs := #[⟨["p"], .skip, [("whole", 0), ("other", 3)]⟩]

theorem entangled_wellFormed :
  entangled.WellFormed where
  leads
    | 0, _ => ⟨0, 0, .stop rfl nofun⟩
    | 1, _ => ⟨1, 2, .link rfl (.stop rfl nofun)⟩
    | 2, _ => ⟨0, 2, .stop rfl nofun⟩
    | 3, _ => ⟨0, 3, .stop rfl nofun⟩
  bound
    | 0, _, rfl | 2, _, rfl | 3, _, rfl => by decide
  fields
    | 0 => by decide
    | 1 => by decide
    | _ + 2 => by simp [record, entangled, Record.values]

theorem entangled_unfolds :
  entangled.Unfolds (.var 3) (.record (some (.str "pair")) [.int32 0, .int32 1] [.scalar "'a'", .scalar "<<proc>>"])
  := by
  have hpair : entangled.resolve (.var 3) = .datum (.record 1) := rfl
  refine .record hpair (by decide) rfl ?_
  change ∀ p ∈ [(Value.lit (.str "a"), _), (.var 2, _)], _
  rw [forall_mem_cons, forall_mem_singleton]
  exact ⟨.scalar (a := .lit (.str "a")) rfl, .scalar (a := .proc (.closure 0)) rfl⟩

/-- Both pairs arrive in every store: round the first one and through the procedure to the second
one, a path ends at its shape, and the second one has the text that it had. -/
theorem shapeAt?_importValue_entangled :
  (∃ p, entangled.exportValue (.var 0) = .ok p ∧ ∀ t : Store, ∃ w, (t.importValue p).1 = .ok w ∧
    (t.importValue p).2.shapeAt? w
      [.field (.int32 1), .field (.int32 1), .field (.int32 0), .captured 1] =
      some (.record (some (.str "pair")) [.int32 0, .int32 1])) ∧
  ∃ p, entangled.exportValue (.var 3) = .ok p ∧ ∀ t : Store, ∃ w, (t.importValue p).1 = .ok w ∧
    (t.importValue p).2.render w = "'pair'#['a', <<proc>>]"
  := by
  have hok {v : Value} (h : (entangled.exportValue v).isOk = true) :
      ∃ p, entangled.exportValue v = .ok p := by
    cases hp : entangled.exportValue v with
    | error =>
      rw [hp] at h
      cases h
    | ok p => exact ⟨p, rfl⟩
  obtain ⟨p, hp⟩ := hok (v := .var 0) (by cbv)
  obtain ⟨q, hq⟩ := hok (v := .var 3) (by cbv)
  refine ⟨⟨p, hp, fun t => ?_⟩, q, hq, fun t => ?_⟩
  · obtain ⟨w, hw, hshape, -⟩ := shapeAt?_importValue entangled_wellFormed (by cbv) hp t
    exact ⟨w, hw, (hshape _).trans (by cbv)⟩
  · have hwithin : (Value.var 3).Within entangled := by cbv
    obtain ⟨w, hw, -, htext⟩ := shapeAt?_importValue entangled_wellFormed hwithin hq t
    have hacyclic := entangled_unfolds.not_cyclic entangled_wellFormed hwithin
    exact ⟨w, hw, (htext fun id hid hcontains => hacyclic ⟨id, hid, hcontains⟩).trans (by cbv)⟩

end Store

end ActorLang
