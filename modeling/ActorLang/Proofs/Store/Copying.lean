import ActorLang.Proofs.Store.Growth
import ActorLang.Store.Portable

/-!
# Copying what a value reaches

A search collects the variables that a value reaches; when it ends, or fails, everything mentioned
by a variable that it is done with has been found.  Then each of these variables is copied, in
order, so that the place of its copy is known from the start.  `DatumCopy` says what it means to be
a copy, and is kept when the store grows.
-/

namespace ActorLang

open Kernel (Ident Stmt)
open List

/-- What a procedure is, apart from the values that it captures. -/
structure Definition where
  params : List Ident
  body : Stmt
  captured : List Ident

def Closure.definition (c : Closure) : Definition := ⟨c.params, c.body, c.env.map (·.1)⟩

variable {visit : Visit} {x v : VarId} {d e : Datum} {r : Search} {a b : Scalar}
  {opened vars : List VarId} {s t out : Store} {ren : Renaming}

namespace Store

/-! ### The search -/

section Search

variable {found found' : List VarId} {work : List Visit}

/-- All that is to be looked at here has been found. -/
def Settled (s : Store) (found : List VarId) : Visit → Prop
  | .var v => s.root v ∈ found
  | .cell => False
  | .close _ => True

/-- The variable is bound, and what it is bound to mentions only variables that have been found. -/
def Finished (s : Store) (found : List VarId) (x : VarId) : Prop :=
  ∃ d, s.slots[x]? = some (.bound d) ∧ ∀ visit ∈ s.datumVisits d, s.Settled found visit

/-- What the variable is bound to has been found, or is looked at before the variable is closed. -/
def Opened (s : Store) (found : List VarId) (work : List Visit) (x : VarId) : Prop :=
  ∃ before after d, work = before ++ .close x :: after ∧ s.slots[x]? = some (.bound d) ∧
    ∀ visit ∈ s.datumVisits d, s.Settled found visit ∨ visit ∈ before

theorem Settled.mono (h : s.Settled found visit) (hsub : found ⊆ found') :
  s.Settled found' visit
  := by
  cases visit with
  | var => exact hsub h
  | cell => exact h
  | close => trivial

theorem Opened.advance (h : s.Opened found (visit :: work) x)
    (more : List Visit) (hsub : found ⊆ found') (hvisit : s.Settled found' visit) :
  s.Finished found' x ∨ s.Opened found' (more ++ work) x
  := by
  obtain ⟨before, after, d, hwork, hd, hall⟩ := h
  cases before with
  | nil =>
    left
    refine ⟨d, hd, ?_⟩
    intro visit' hvisit'
    exact ((hall visit' hvisit').resolve_right (by simp)).mono hsub
  | cons _ before =>
    right
    cases hwork
    refine ⟨more ++ before, after, d, by simp, hd, ?_⟩
    intro visit' hvisit'
    rcases hall visit' hvisit' with h | h
    · exact .inl (h.mono hsub)
    · rcases mem_cons.mp h with rfl | h
      · exact .inl hvisit
      · exact .inr (mem_append_right more h)

/-- Every variable that a search starts with is finished or opened. -/
def Progress (s : Store) (found : List VarId) (work : List Visit) : Prop :=
  ∀ x ∈ found, s.Finished found x ∨ s.Opened found work x

theorem Progress.advance (h : s.Progress found (visit :: work)) (more : List Visit) (hvisit : s.Settled found visit) :
  s.Progress found (more ++ work)
  := by
  intro x hx
  rcases h x hx with hx | hx
  · exact .inl hx
  · exact hx.advance more (fun _ h => h) hvisit

theorem Progress.enter (h : s.Progress found (.var v :: work)) (hd : s.slots[s.root v]? = some (.bound d)) :
  s.Progress (s.root v :: found) (s.datumVisits d ++ .close (s.root v) :: work)
  := by
  intro x hx
  rcases mem_cons.mp hx with rfl | hx
  · right
    exact ⟨s.datumVisits d, work, d, rfl, hd, fun _ hvisit => .inr hvisit⟩
  · have hsub : found ⊆ s.root v :: found := subset_cons_self ..
    rcases h x hx with ⟨d, hd, hall⟩ | hx
    · exact .inl ⟨d, hd, fun visit hvisit => (hall visit hvisit).mono hsub⟩
    · have := hx.advance (s.datumVisits d ++ [.close (s.root v)]) hsub (mem_cons_self ..)
      simpa using this

/-- What a search has found. -/
structure Complete (s : Store) (found : List VarId) (work : List Visit) (r : Search) : Prop where
  subset : found ⊆ r.found
  finished : ∀ x ∈ r.found, x ∉ r.opened → s.Finished r.found x
  settled : r.failure = none → r.opened = [] ∧ ∀ visit ∈ work, s.Settled r.found visit

theorem Complete.of_fail (h : s.Progress found (visit :: work))
    (hvisit : ∀ y, visit ≠ .close y) (reason : NotPortable) :
  s.Complete found (visit :: work) (.fail found work reason) where
  subset := fun _ h => h
  finished x hx hopened := by
    refine (h x hx).resolve_right ?_
    rintro ⟨before, _, d, hwork, -, -⟩
    cases before with
    | nil =>
      cases hwork
      exact hvisit x rfl
    | cons =>
      cases hwork
      simp [Search.fail] at hopened
  settled hnone := by cases hnone

theorem Complete.cons (more : List Visit) (hsub : found ⊆ found')
    (h : s.Complete found' (more ++ work) r) (hvisit : s.Settled found' visit) :
  s.Complete found (visit :: work) r where
  subset := Subset.trans hsub h.subset
  finished := h.finished
  settled hnone := by
    obtain ⟨hopened, hall⟩ := h.settled hnone
    refine ⟨hopened, forall_mem_cons.mpr ⟨hvisit.mono h.subset, ?_⟩⟩
    exact fun visit' hvisit' => hall visit' (mem_append_right more hvisit')

theorem complete_reach (h : s.Progress found work) :
  s.Complete found work (s.reach found work)
  := by
  fun_induction reach s found work with
  | case1 =>
    refine ⟨fun _ h => h, ?_, by simp⟩
    intro x hx _
    apply (h x hx).resolve_right
    rintro ⟨_, _, d, hwork, -⟩
    simp at hwork
  | case2 => exact Complete.of_fail h (by simp) .cell
  | case3 _ v _ ih =>
    exact Complete.cons [] (fun _ h => h) (ih (h.advance [] trivial)) trivial
  | case4 found v _ hmem ih =>
    have hvisit : s.Settled found (.var v) := contains_iff_mem.mp hmem
    exact Complete.cons [] (fun _ h => h) (ih (h.advance [] hvisit)) hvisit
  | case5 found v _ _ d hd ih =>
    have hsettled : s.Settled (s.root v :: found) (.var v) := mem_cons_self ..
    apply Complete.cons (s.datumVisits d ++ [.close (s.root v)]) (subset_cons_self ..) _ hsettled
    simpa using ih (h.enter hd)
  | case6 => exact Complete.of_fail h (by simp) .unbound

theorem complete_reach_nil (s : Store) (work : List Visit) :
  s.Complete [] work (s.reach [] work)
  := complete_reach nofun

end Search

/-! ### Copies -/

def Renaming.closure (ren : Renaming) (s : Store) (c : Closure) : Closure :=
  { c with env := c.env.map fun (name, v) => (name, ren.apply s v) }

@[simp] theorem Renaming.definition_closure (ren : Renaming) (s : Store) (c : Closure) :
  (ren.closure s c).definition = c.definition
  := by
  simp [Closure.definition, Renaming.closure]

end Store

/-- Whether a scalar is the same in every store. -/
def Scalar.isPlain : Scalar → Bool
  | .proc (.closure _) | .actorCfgtr _ | .actorCfg _ => false
  | _ => true

namespace Store

/-- A scalar of `s` and its copy in `out`. -/
inductive ScalarCopy (s : Store) (ren : Renaming) (out : Store) : Scalar → Scalar → Prop where
  | plain {a : Scalar} (h : a.isPlain = true) : ScalarCopy s ren out a a
  | closure {id id'} (h : out.procs[id']? = some (ren.closure s (s.closure id))) :
      ScalarCopy s ren out (.proc (.closure id)) (.proc (.closure id'))
  | actorCfgtr {id id'} (h : out.procs[id']? = some (ren.closure s (s.closure id))) :
      ScalarCopy s ren out (.actorCfgtr id) (.actorCfgtr id')
  | actorCfg {id id' cfgtr}
      (hcfgtr : out.procs[cfgtr]? = some (ren.closure s (s.closure (s.cfg id).cfgtr)))
      (hcfg : out.cfgs[id']? = some ⟨cfgtr, (s.cfg id).args.map (ren.apply s)⟩) :
      ScalarCopy s ren out (.actorCfg id) (.actorCfg id')

inductive LeafCopy (s : Store) (ren : Renaming) (out : Store) : Leaf → Leaf → Prop where
  | var (v : VarId) : LeafCopy s ren out (.var v) (.var (ren.apply s v))
  | scalar {a b : Scalar} (h : s.ScalarCopy ren out a b) :
      LeafCopy s ren out (.scalar a) (.scalar b)

def FieldCopy (s : Store) (ren : Renaming) (out : Store) (f g : Feature × Leaf) : Prop :=
  f.1 = g.1 ∧ s.LeafCopy ren out f.2 g.2

inductive DatumCopy (s : Store) (ren : Renaming) (out : Store) : Datum → Datum → Prop where
  | scalar {a b : Scalar} (h : s.ScalarCopy ren out a b) :
      DatumCopy s ren out (.scalar a) (.scalar b)
  | record {id id' fields} (hrecord : out.records[id']? = some ⟨(s.record id).label, fields⟩)
      (hfields : Forall₂ (s.FieldCopy ren out) (s.record id).fields fields) :
      DatumCopy s ren out (.record id) (.record id')

section Copies

variable {out' out'' : Store}

theorem ScalarCopy.mono (h : s.ScalarCopy ren out a b) (hout : out.ContinuedBy out') :
  s.ScalarCopy ren out' a b
  := by
  cases h with
  | plain h => exact .plain h
  | closure h => exact .closure (ContinuedBy.getElem?_eq hout.procs h)
  | actorCfgtr h => exact .actorCfgtr (ContinuedBy.getElem?_eq hout.procs h)
  | actorCfg hcfgtr hcfg =>
    exact .actorCfg (ContinuedBy.getElem?_eq hout.procs hcfgtr) (ContinuedBy.getElem?_eq hout.cfgs hcfg)

theorem FieldCopy.mono {f g : Feature × Leaf} (h : s.FieldCopy ren out f g) (hout : out.ContinuedBy out') :
  s.FieldCopy ren out' f g
  := by
  obtain ⟨f, _⟩ := f
  obtain ⟨g, _⟩ := g
  obtain ⟨rfl, h⟩ := h
  refine ⟨rfl, ?_⟩
  cases h with
  | var v => exact .var v
  | scalar h => exact .scalar (h.mono hout)

theorem forall₂_fieldCopy_mono {fields fields' : List (Feature × Leaf)}
    (h : Forall₂ (s.FieldCopy ren out) fields fields') (hout : out.ContinuedBy out') :
  Forall₂ (s.FieldCopy ren out') fields fields'
  := h.imp fun _ _ hfield => hfield.mono hout

theorem DatumCopy.mono (h : s.DatumCopy ren out d e) (hout : out.ContinuedBy out') :
  s.DatumCopy ren out' d e
  := by
  cases h with
  | scalar h => exact .scalar (h.mono hout)
  | record hrecord hfields =>
    exact .record (ContinuedBy.getElem?_eq hout.records hrecord) (forall₂_fieldCopy_mono hfields hout)

theorem DatumCopy.within (h : s.DatumCopy ren out d e) :
  (Value.datum e).Within out
  := by
  cases h with
  | scalar => trivial
  | record hrecord => exact (Array.getElem?_eq_some_iff.mp hrecord).1

/-- Content is added to a store, and neither a variable nor a cell. -/
structure AddsContent (out out' : Store) : Prop where
  continued : out.ContinuedBy out'
  slots : out'.slots = out.slots
  cells : out'.cells = out.cells

theorem AddsContent.trans (h : out.AddsContent out') (h' : out'.AddsContent out'') :
  out.AddsContent out'' where
  continued := h.continued.trans h'.continued
  slots := h'.slots.trans h.slots
  cells := h'.cells.trans h.cells

/-- Content is added, and what comes out of that is related to it. -/
abbrev Copies {α : Type} (out : Store) (r : α × Store) (P : Store → α → Prop) : Prop :=
  out.AddsContent r.2 ∧ P r.2 r.1

theorem addsContent_copyClosure (s : Store) (ren : Renaming) (id : ProcId) (out : Store) :
  out.Copies (s.copyClosure ren id out) (·.procs[·]? = some (ren.closure s (s.closure id)))
  := by
  refine ⟨⟨ContinuedBy.newClosure .., rfl, rfl⟩, ?_⟩
  simp [copyClosure, newClosure, Renaming.closure]

theorem scalarCopy_copyScalar (s : Store) (ren : Renaming) (a : Scalar) (out : Store) :
  out.Copies (s.copyScalar ren a out) (s.ScalarCopy ren · a)
  := by
  have hplain (hcopy : s.copyScalar ren a out = (a, out)) (ha : a.isPlain = true) :
      out.Copies (s.copyScalar ren a out) (s.ScalarCopy ren · a) := by
    rw [hcopy]
    exact ⟨⟨ContinuedBy.refl out, rfl, rfl⟩, .plain ha⟩
  cases a with
  | proc p =>
    cases p with
    | closure id =>
      obtain ⟨hadds, hcopy⟩ := s.addsContent_copyClosure ren id out
      exact ⟨hadds, .closure hcopy⟩
    | builtin | iterator => exact hplain rfl rfl
  | actorCfgtr id =>
    obtain ⟨hadds, hcopy⟩ := s.addsContent_copyClosure ren id out
    exact ⟨hadds, .actorCfgtr hcopy⟩
  | actorCfg id =>
    obtain ⟨hadds, hcopy⟩ := s.addsContent_copyClosure ren (s.cfg id).cfgtr out
    refine ⟨hadds.trans ⟨ContinuedBy.newCfg .., rfl, rfl⟩, .actorCfg hcopy ?_⟩
    exact Array.getElem?_push_size
  | lit | token | actor | cell => exact hplain rfl rfl

theorem fieldCopy_copyFields (s : Store) (ren : Renaming) (fields : List (Feature × Leaf)) (out : Store) :
  out.Copies (s.copyFields ren fields out) fun t => Forall₂ (s.FieldCopy ren t) fields
  := by
  induction fields generalizing out with
  | nil => exact ⟨⟨ContinuedBy.refl out, rfl, rfl⟩, .nil⟩
  | cons field _ ih =>
    obtain ⟨f, leaf⟩ := field
    cases leaf with
    | var v =>
      obtain ⟨hadds, hrest⟩ := ih out
      exact ⟨hadds, .cons ⟨rfl, .var v⟩ hrest⟩
    | scalar a =>
      obtain ⟨hadds, hcopy⟩ := s.scalarCopy_copyScalar ren a out
      obtain ⟨hadds', hrest⟩ := ih (s.copyScalar ren a out).2
      exact ⟨hadds.trans hadds', .cons ⟨rfl, .scalar (hcopy.mono hadds'.continued)⟩ hrest⟩

theorem datumCopy_copyDatum (s : Store) (ren : Renaming) (d : Datum) (out : Store) :
  out.Copies (s.copyDatum ren d out) (s.DatumCopy ren · d)
  := by
  cases d with
  | scalar a =>
    obtain ⟨hadds, hcopy⟩ := s.scalarCopy_copyScalar ren a out
    exact ⟨hadds, .scalar hcopy⟩
  | record id =>
    obtain ⟨hadds, hfields⟩ := s.fieldCopy_copyFields ren (s.record id).fields out
    have hnew := ContinuedBy.newRecord (s.copyFields ren (s.record id).fields out).2
      ⟨(s.record id).label, (s.copyFields ren (s.record id).fields out).1⟩
    refine ⟨hadds.trans ⟨hnew, rfl, rfl⟩, .record ?_ (forall₂_fieldCopy_mono hfields hnew)⟩
    simp [copyDatum, newRecord]

/-- What the copy of a variable holds. -/
def SlotCopy (s : Store) (ren : Renaming) (opened : List VarId) (out : Store) (v : VarId) :
    Slot → Prop
  | .unbound => v ∈ opened
  | .bound e => v ∉ opened ∧ s.DatumCopy ren out ((s.datum? v).getD default) e
  | .link _ => False

theorem SlotCopy.mono {slot : Slot} (h : s.SlotCopy ren opened out v slot) (hout : out.ContinuedBy out') :
  s.SlotCopy ren opened out' v slot
  := by
  cases slot with
  | unbound | link => exact h
  | bound => exact ⟨h.1, h.2.mono hout⟩

theorem slotCopy_copyVars (s : Store) (ren : Renaming) (opened vars : List VarId) (out : Store) :
  out.ContinuedBy (s.copyVars ren opened vars out) ∧
    (s.copyVars ren opened vars out).slots.size = out.slots.size + vars.length ∧
    (s.copyVars ren opened vars out).cells = out.cells ∧
    ∀ i v, vars[i]? = some v → ∃ slot, (s.copyVars ren opened vars out).slots[out.slots.size + i]? = some slot ∧
        s.SlotCopy ren opened (s.copyVars ren opened vars out) v slot
  := by
  induction vars generalizing out with
  | nil => exact ⟨ContinuedBy.refl out, rfl, rfl, by simp⟩
  | cons v rest ih =>
    -- what the first variable is copied to, before and after the others are copied
    obtain ⟨mid, slot, hrun, hmid, hsize, hcells, hslot, hcopy⟩ : ∃ mid slot,
        s.copyVars ren opened (v :: rest) out = s.copyVars ren opened rest mid ∧
        out.ContinuedBy mid ∧ mid.slots.size = out.slots.size + 1 ∧ mid.cells = out.cells ∧
        mid.slots[out.slots.size]? = some slot ∧ s.SlotCopy ren opened mid v slot := by
      by_cases hv : v ∈ opened
      · refine ⟨(out.newSlot .unbound).2, .unbound, ?_, ContinuedBy.newSlot .., ?_, rfl, ?_, hv⟩
        · rw [copyVars, if_pos (by simpa using hv)]
        · simp [newSlot]
        · simp [newSlot]
      · obtain ⟨hadds, hcopy⟩ := s.datumCopy_copyDatum ren ((s.datum? v).getD default) out
        have hnew := ContinuedBy.newSlot (s.copyDatum ren ((s.datum? v).getD default) out).2
          (.bound (s.copyDatum ren ((s.datum? v).getD default) out).1)
        refine ⟨_, .bound _, ?_, hadds.continued.trans hnew, ?_, hadds.cells, ?_, hv, hcopy.mono hnew⟩
        · rw [copyVars, if_neg (by simpa using hv)]
        · simp [newSlot, hadds.slots]
        · simp [newSlot, ← hadds.slots]
    obtain ⟨hcontinued, _, hcells', hall⟩ := ih mid
    rw [hrun]
    refine ⟨hmid.trans hcontinued, ?_, hcells'.trans hcells, ?_⟩
    · rw [length_cons]
      omega
    · intro i w hw
      cases i with
      | zero =>
        cases hw
        exact ⟨slot, ContinuedBy.getElem?_eq hcontinued.slots hslot, hcopy.mono hcontinued⟩
      | succ i =>
        obtain ⟨slot', hslot', hcopy'⟩ := hall i w hw
        refine ⟨slot', ?_, hcopy'⟩
        rw [← hslot']
        congr 1
        omega

end Copies

/-! ### Snapshots -/

section Snapshots

theorem datum?_of_bound (hx : s.slots[x]? = some (.bound d)) :
  s.datum? x = some d
  := by
  have hlead : s.Leads 0 x x := Leads.stop hx (by simp)
  rw [datum?, hlead.root_eq, hx]

/-- Where the copies of the variables that a search has found are put. -/
def Search.renaming (r : Search) (out : Store) : Renaming := ⟨r.found.reverse, out.slots.size⟩

def copyFound (s : Store) (r : Search) (out : Store) : Store :=
  s.copyVars (r.renaming out) r.opened r.found.reverse out

def copyValue (s : Store) (ren : Renaming) (out : Store) : Value → Value × Store
  | .var v => (.var (ren.apply s v), out)
  | .datum d => (.datum (s.copyDatum ren d out).1, (s.copyDatum ren d out).2)

theorem addsContent_copyValue (s : Store) (ren : Renaming) (out : Store) (v : Value) :
  out.AddsContent (s.copyValue ren out v).2
  := by
  cases v with
  | var => exact ⟨.refl out, rfl, rfl⟩
  | datum d => exact (s.datumCopy_copyDatum ren d out).1

theorem copyInto_cases (s : Store) (v : Value) (out : Store) (hr : s.reach [] (s.valueVisits v) = r) :
  (∃ e, r.failure = some e ∧ s.copyInto v out = (.error e, s.copyFound r out)) ∨
  r.failure = none ∧ s.copyInto v out = (.ok (s.copyValue (r.renaming out) (s.copyFound r out) v).1,
      (s.copyValue (r.renaming out) (s.copyFound r out) v).2)
  := by
  subst hr
  cases hfailure : (s.reach [] (s.valueVisits v)).failure with
  | some e =>
    left
    refine ⟨e, rfl, ?_⟩
    simp only [copyInto, hfailure]
    rfl
  | none =>
    right
    refine ⟨rfl, ?_⟩
    cases v <;>
    · simp only [copyInto, hfailure]
      rfl

theorem continuedBy_copyFound (s : Store) (r : Search) (out : Store) :
  out.ContinuedBy (s.copyFound r out) ∧ (s.copyFound r out).slots.size = out.slots.size + r.found.length
  := by
  obtain ⟨hcontinued, hsize, -, -⟩ :=
    s.slotCopy_copyVars (r.renaming out) r.opened r.found.reverse out
  rw [length_reverse] at hsize
  exact ⟨hcontinued, hsize⟩

theorem addsContent_copyInto (s : Store) (v : Value) (out : Store) :
  (s.copyFound (s.reach [] (s.valueVisits v)) out).AddsContent (s.copyInto v out).2
  := by
  rcases s.copyInto_cases v out rfl with ⟨e, -, h⟩ | ⟨-, h⟩
  · rw [h]
    exact ⟨.refl _, rfl, rfl⟩
  · rw [h]
    apply addsContent_copyValue

theorem continuedBy_copyInto (s : Store) (v : Value) (out : Store) :
  out.ContinuedBy (s.copyInto v out).2
  := (s.continuedBy_copyFound _ out).1.trans (s.addsContent_copyInto v out).continued

theorem slotCopy_copyFound {slot : Slot} (ht : (s.copyFound r out).AddsContent t)
    (hx : out.slots.size ≤ x) (hslot : t.slots[x]? = some slot) :
  ∃ y ∈ r.found, s.SlotCopy (r.renaming out) r.opened t y slot
  := by
  obtain ⟨-, hsize, -, hall⟩ := s.slotCopy_copyVars (r.renaming out) r.opened r.found.reverse out
  have hlt : x < t.slots.size := (Array.getElem?_eq_some_iff.mp hslot).1
  rw [ht.slots, copyFound, hsize] at hlt
  have hi : x - out.slots.size < r.found.reverse.length := Nat.sub_lt_left_of_lt_add hx hlt
  obtain ⟨_, hslot', hcopy⟩ := hall _ _ (getElem?_eq_getElem hi)
  rw [Nat.add_sub_cancel' hx] at hslot'
  cases hslot.symm.trans (ht.slots ▸ hslot')
  exact ⟨_, mem_reverse.mp (getElem_mem hi), hcopy.mono ht.continued⟩

end Snapshots

end Store

end ActorLang
