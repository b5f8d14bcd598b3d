import ActorLang.Proofs.Store.Reachability
import ActorLang.Store.Render

/-!
# What is printed of a value

Printing goes down from a record to its fields and stops at a record that it is inside of, so it
always ends.  Otherwise the value unfolds to a finite tree, and this tree alone decides the text: it
does not matter which variables stand for others and which records are shared.
-/

namespace ActorLang

open List

/-! ### Trees -/

/-- What is printed of a value.  Variables that are not bound are all alike. -/
inductive Tree where
  | unbound
  | scalar (text : String)
  /-- A record inside of itself. -/
  | circular
  | record (label : Option Feature) (features : List Feature) (parts : List Tree)

namespace Tree

/-- The features are the positions of at least one part. -/
def Positional (features : List Feature) : Prop :=
  features = (range features.length).map Record.position ∧ features ≠ []

instance (features : List Feature) : Decidable (Positional features) := inferInstanceAs (Decidable (_ ∧ _))

/-- The text of a record, from the texts of its parts.  Positions are not written. -/
def recordText (label : Option Feature) (features : List Feature) (texts : List String) : String :=
  let name := label.elim "" (·.render ++ "#")
  if Positional features then
    name ++ "[" ++ ", ".intercalate texts ++ "]"
  else
    name ++ "\x7b" ++ ", ".intercalate (zipWith (fun f text => f.render ++ ": " ++ text) features texts) ++ "\x7d"

def render : Tree → String
  | unbound => "_"
  | scalar text => text
  | circular => "<<circular>>"
  | record label features parts => recordText label features (parts.map render)

/-- The mark of a record inside of itself is somewhere in the tree. -/
inductive Marked : Tree → Prop where
  | circular : Marked circular
  | part {label features parts t} (ht : t ∈ parts) (h : Marked t) :
      Marked (record label features parts)

end Tree

theorem Record.renderWith_eq (r : Record) (texts : List String) :
  r.renderWith texts = Tree.recordText r.label (r.fields.map (·.1)) texts
  := by
  have htuple : r.isTuple = true ↔ r.fields.map (·.1) = (range (r.fields.map (·.1)).length).map position := by
    rw [isTuple, all_eq_true]
    constructor
    · intro h
      refine ext_getElem (by simp) fun i hi _ => ?_
      rw [length_map] at hi
      have hmem : (r.fields[i], i) ∈ r.fields.zipIdx := by
        rw [mem_zipIdx_iff_getElem?, getElem?_eq_getElem hi]
      simpa using h _ hmem
    · rintro h ⟨⟨f, _⟩, i⟩ hmem
      obtain ⟨hi, hfield⟩ := List.getElem?_eq_some_iff.mp (mem_zipIdx_iff_getElem?.mp hmem)
      have hf := congrArg (·[i]?) h
      simpa [hi, hfield] using hf
  have hempty : (!r.fields.isEmpty) = true ↔ r.fields.map (·.1) ≠ [] := by simp
  have hzip : (r.fields.zip texts).map (fun p => p.1.1.render ++ ": " ++ p.2) =
      zipWith (fun f text => f.render ++ ": " ++ text) (r.fields.map (·.1)) texts := by
    rw [map_zip_eq_zipWith, zipWith_map_left]
    rfl
  simp only [renderWith, Bool.and_eq_true, htuple, hempty, hzip]
  cases r.label <;> rfl

theorem mem_zip_getElem {α β : Type} {l : List α} {l' : List β} {i : Nat} (h : i < l.length) (h' : i < l'.length) :
  (l[i], l'[i]) ∈ l.zip l'
  := by
  rw [← getElem_zip (h := by rw [length_zip]; exact Nat.lt_min.mpr ⟨h, h'⟩)]
  apply getElem_mem

namespace Store

variable {s : Store} {path : List RecordId} {v w : Value} {t t' : Tree} {id : RecordId}

/-- The tree that is printed of a value inside of the records of a path. -/
def tree (s : Store) (path : List RecordId) (v : Value) : Tree :=
  match s.resolve v with
  | .var _ => .unbound
  | .datum (.scalar a) => .scalar a.render
  | .datum (.record id) =>
    if _h : path.contains id = false ∧ id < s.records.size then
      let r := s.record id
      .record r.label (r.fields.map (·.1)) (r.values.map fun w => s.tree (id :: path) w)
    else .circular
termination_by unseen s.recordIds path
decreasing_by exact unseen_cons_lt (mem_range.mpr _h.2) _h.1

/-- The tree that a value unfolds to, with its variables resolved. -/
inductive Unfolds (s : Store) : Value → Tree → Prop where
  | unbound {v x} (h : s.resolve v = .var x) : Unfolds s v .unbound
  | scalar {v a} (h : s.resolve v = .datum (.scalar a)) : Unfolds s v (.scalar a.render)
  | record {v id parts} (h : s.resolve v = .datum (.record id)) (hid : id < s.records.size)
      (hlength : (s.record id).values.length = parts.length)
      (hparts : ∀ p ∈ (s.record id).values.zip parts, Unfolds s p.1 p.2) :
      Unfolds s v (.record (s.record id).label ((s.record id).fields.map (·.1)) parts)

/-- The record leads to the other one through its fields. -/
def Contains (s : Store) (outer inner : RecordId) : Prop :=
  ∃ v ∈ (s.record outer).values, s.Reaches v (.record inner)

/-- Some record that the value leads to contains itself. -/
def Cyclic (s : Store) (v : Value) : Prop :=
  ∃ id, s.Reaches v (.record id) ∧ s.Contains id id

theorem renderIn_eq (s : Store) (path : List RecordId) (v : Value) :
  s.renderIn path v = (s.tree path v).render
  := by
  fun_induction tree s path v with
  | case1 _ v x h | case2 _ v a h => rw [renderIn, h, Tree.render]
  | case3 path v id h hin r ih =>
    have htexts : r.fields.map (fun f => s.renderIn (id :: path) f.2.toValue) =
        (r.values.map (s.tree (id :: path))).map Tree.render := by
      rw [Record.values, map_map, map_map]
      exact map_congr_left fun f _ => ih f.2.toValue
    rw [renderIn, h, Tree.render, ← htexts, ← Record.renderWith_eq]
    dsimp only
    rw [dif_pos hin]
  | case4 _ v id h hin =>
    rw [renderIn, h, Tree.render]
    dsimp only
    rw [dif_neg hin]

/-! ### Records inside of themselves -/

theorem reaches_record (h : s.resolve v = .datum (.record id)) :
  s.Reaches v (.record id)
  := by
  rw [Value.record, ← h]
  exact Reaches.self.resolve

theorem reaches_field (h : s.resolve v = .datum (.record id)) (hw : w ∈ (s.record id).values) :
  s.Reaches v w
  := (reaches_record h).field hw

/-- The records of the path lead to the value through their fields. -/
def Encloses (s : Store) (path : List RecordId) (v : Value) : Prop :=
  ∀ id ∈ path, ∃ w ∈ (s.record id).values, s.Reaches w v

theorem encloses_nil (s : Store) (v : Value) :
  s.Encloses [] v
  := forall_mem_nil _

section Enclosed

variable (hpath : s.Encloses path v) (h : s.resolve v = .datum (.record id))

include hpath h

theorem Encloses.field (hw : w ∈ (s.record id).values) :
  s.Encloses (id :: path) w
  := by
  refine forall_mem_cons.mpr ⟨⟨w, hw, .self⟩, fun i hi => ?_⟩
  obtain ⟨u, hu, hreaches⟩ := hpath i hi
  exact ⟨u, hu, hreaches.trans (reaches_field h hw)⟩

theorem Encloses.cyclic (hid : id ∈ path) :
  s.Cyclic v
  := by
  obtain ⟨w, hw, hreaches⟩ := hpath id hid
  exact ⟨id, reaches_record h, w, hw, hreaches.trans (reaches_record h)⟩

end Enclosed

/-- Printing stops at a record only if the record contains itself. -/
theorem cyclic_of_marked (hs : s.WellFormed) (hv : v.Within s) (hpath : s.Encloses path v)
    (h : (s.tree path v).Marked) :
  s.Cyclic v
  := by
  fun_induction tree s path v with
  | case1 | case2 => cases h
  | case3 _ v id hid _ r ih =>
    cases h with
    | part ht h =>
      obtain ⟨w, hw, rfl⟩ := mem_map.mp ht
      obtain ⟨i, hi, hcontains⟩ := ih w (hs.fields id w hw) (hpath.field hid hw) h
      exact ⟨i, (reaches_field hid hw).trans hi, hcontains⟩
  | case4 _ v id hid hin =>
    have hwithin := hs.resolve_within hv
    rw [hid] at hwithin
    refine hpath.cyclic hid ?_
    by_contra hmem
    exact hin ⟨by simpa using hmem, hwithin⟩

theorem unfolds_tree (h : ¬ (s.tree path v).Marked) :
  s.Unfolds v (s.tree path v)
  := by
  fun_induction tree s path v with
  | case1 _ v x hx => exact .unbound hx
  | case2 _ v a ha => exact .scalar ha
  | case3 _ v id hid hin r ih =>
    refine .record hid hin.2 (length_map _).symm ?_
    rintro ⟨w, t⟩ hp
    rw [← map_prod_left_eq_zip, mem_map] at hp
    obtain ⟨_, hw, ⟨⟩⟩ := hp
    exact ih w fun hmarked => h (.part (mem_map_of_mem hw) hmarked)
  | case4 => exact absurd .circular h

theorem Unfolds.unique (h : s.Unfolds v t) (h' : s.Unfolds v t') :
  t = t'
  := by
  induction h generalizing t' with
  | unbound h =>
    cases h' with
    | unbound => rfl
    | scalar h' | record h' => cases h.symm.trans h'
  | scalar h =>
    cases h' with
    | scalar h' =>
      cases h.symm.trans h'
      rfl
    | unbound h' | record h' => cases h.symm.trans h'
  | record h _ hlength _ ih =>
    cases h' with
    | unbound h' | scalar h' => cases h.symm.trans h'
    | record h' _ hlength' hparts' =>
      cases h.symm.trans h'
      congr 1
      refine ext_getElem (hlength.symm.trans hlength') fun i hi hi' => ?_
      have hvalue := hlength.symm ▸ hi
      exact ih _ (mem_zip_getElem hvalue hi) (hparts' _ (mem_zip_getElem hvalue hi'))

/-- What a value leads to unfolds to a part of its tree. -/
theorem Unfolds.of_reaches {P : Tree → Prop} (h : s.Unfolds v t) (hs : s.WellFormed) (hv : v.Within s) (ht : P t)
    (hP : ∀ label features parts, P (.record label features parts) → ∀ u ∈ parts, P u) (hw : s.Reaches v w) :
  ∃ u, P u ∧ s.Unfolds w u
  := by
  induction hw with
  | self => exact ⟨t, ht, h⟩
  | resolve hw ih =>
    obtain ⟨u, hu, hunfolds⟩ := ih
    have hresolve := hs.resolve_resolve (hs.within_of_reaches hv hw)
    refine ⟨u, hu, ?_⟩
    cases hunfolds with
    | unbound h => exact .unbound (hresolve.trans h)
    | scalar h => exact .scalar (hresolve.trans h)
    | record h hid hlength hparts => exact .record (hresolve.trans h) hid hlength hparts
  | field _ hw ih =>
    obtain ⟨u, hu, hunfolds⟩ := ih
    cases hunfolds with
    | unbound h | scalar h => cases h
    | record h _ hlength hparts =>
      cases h
      obtain ⟨i, hi, rfl⟩ := getElem_of_mem hw
      have hpart := hlength ▸ hi
      exact ⟨_, hP _ _ _ hu _ (getElem_mem hpart), hparts _ (mem_zip_getElem hi hpart)⟩

theorem sizeOf_part_lt {label : Option Feature} {features : List Feature} {parts : List Tree} (ht : t ∈ parts) :
  sizeOf t < sizeOf (Tree.record label features parts)
  := by
  have := sizeOf_lt_of_mem ht
  rw [Tree.record.sizeOf_spec]
  omega

theorem Unfolds.not_cyclic (h : s.Unfolds v t) (hs : s.WellFormed) (hv : v.Within s) :
  ¬ s.Cyclic v
  := by
  rintro ⟨id, hid, w, hw, hcycle⟩
  obtain ⟨u, -, hu⟩ := h.of_reaches hs hv trivial (fun _ _ _ _ _ _ => trivial) hid
  obtain ⟨u', hlt, hu'⟩ : ∃ u', sizeOf u' < sizeOf u ∧ s.Unfolds (.record id) u' := by
    cases hu with
    | unbound h | scalar h => cases h
    | record h _ hlength hparts =>
      cases h
      obtain ⟨i, hi, rfl⟩ := getElem_of_mem hw
      have hpart := hlength ▸ hi
      exact (hparts _ (mem_zip_getElem hi hpart)).of_reaches hs (hs.fields id _ hw) (sizeOf_part_lt (getElem_mem hpart))
        (fun _ _ _ hlt _ ht => Nat.lt_trans (sizeOf_part_lt ht) hlt) hcycle
  rw [hu'.unique hu] at hlt
  exact Nat.lt_irrefl _ hlt

/-- Printing does not stop inside of records with larger trees. -/
theorem Unfolds.tree_eq (h : s.Unfolds v t) (hpath : ∀ id ∈ path, ∃ u, s.Unfolds (.record id) u ∧ sizeOf t < sizeOf u) :
  s.tree path v = t
  := by
  induction h generalizing path with
  | unbound h | scalar h => rw [tree, h]
  | @record v id _ h hid hlength hparts ih =>
    have hrecord : s.Unfolds (.record id) _ := .record rfl hid hlength hparts
    have hin : path.contains id = false ∧ id < s.records.size := by
      refine ⟨?_, hid⟩
      rw [contains_eq_mem, decide_eq_false_iff_not]
      intro hmem
      obtain ⟨u, hu, hlt⟩ := hpath id hmem
      rw [hu.unique hrecord] at hlt
      exact Nat.lt_irrefl _ hlt
    rw [tree, h]
    dsimp only
    rw [dif_pos hin]
    congr 1
    refine ext_getElem (by simpa using hlength) fun i hi hi' => ?_
    rw [length_map] at hi
    rw [getElem_map]
    refine ih _ (mem_zip_getElem hi hi') (forall_mem_cons.mpr ⟨⟨_, hrecord, sizeOf_part_lt (getElem_mem hi')⟩, ?_⟩)
    intro j hj
    obtain ⟨u, hu, hlt⟩ := hpath j hj
    exact ⟨u, hu, Nat.lt_trans (sizeOf_part_lt (getElem_mem hi')) hlt⟩

theorem Unfolds.render_eq (h : s.Unfolds v t) :
  s.render v = t.render
  := by
  rw [render, renderIn_eq, h.tree_eq (forall_mem_nil _)]

theorem unfolds_of_not_cyclic (hs : s.WellFormed) (hv : v.Within s) (h : ¬ s.Cyclic v) :
  s.Unfolds v (s.tree [] v)
  := unfolds_tree fun hmarked => h (cyclic_of_marked hs hv (s.encloses_nil v) hmarked)

/-- A value is printed as a tree, and this has the mark of a record inside of itself precisely if some record that the
value leads to contains itself.  If there is none, the tree is what the value unfolds to, and whatever unfolds to it, in
any store, has the same text. -/
theorem render_tree (hs : s.WellFormed) (hv : v.Within s) :
  s.render v = (s.tree [] v).render ∧ ((s.tree [] v).Marked ↔ s.Cyclic v) ∧
  (¬ s.Cyclic v → s.Unfolds v (s.tree [] v) ∧
    ∀ (s' : Store) (v' : Value), s'.Unfolds v' (s.tree [] v) → s'.render v' = s.render v)
  := by
  have hrender : s.render v = (s.tree [] v).render := s.renderIn_eq [] v
  refine ⟨hrender, ⟨cyclic_of_marked hs hv (s.encloses_nil v), fun hcyclic => ?_⟩, fun hcyclic => ?_⟩
  · by_contra hmarked
    exact (unfolds_tree hmarked).not_cyclic hs hv hcyclic
  · refine ⟨unfolds_of_not_cyclic hs hv hcyclic, fun s' v' h => ?_⟩
    rw [h.render_eq, hrender]

/-- A tuple of itself and an empty record, and a tuple that has the empty record twice. -/
def knot : Store where
  slots := #[.bound (.record 0), .bound (.record 0), .bound (.record 1), .bound (.record 2)]
  records := #[.tuple none [.var 1, .var 2], {}, .tuple none [.var 2, .var 2]]

/-- The tuple of itself is marked, and the empty record is printed twice. -/
theorem render_tree_knot :
  (knot.tree [] (.var 0)).Marked ∧ knot.render (.var 0) = "[<<circular>>, \x7b\x7d]" ∧
  ¬ knot.Cyclic (.var 3) ∧ knot.render (.var 3) = "[\x7b\x7d, \x7b\x7d]"
  := by
  have hknot : knot.WellFormed := .of_no_link (by decide) (by decide)
  have hcyclic : knot.Cyclic (.var 0) :=
    ⟨0, reaches_record rfl, .var 1, by decide, reaches_record rfl⟩
  have hempty : knot.Unfolds (.var 2) (.record none [] []) := by
    have hresolve : knot.resolve (.var 2) = .datum (.record 1) := rfl
    exact .record hresolve (by decide) rfl (forall_mem_nil _)
  have hpair : knot.Unfolds (.var 3) (.record none [.int32 0, .int32 1] [.record none [] [], .record none [] []]) := by
    have hresolve : knot.resolve (.var 3) = .datum (.record 2) := rfl
    refine .record hresolve (by decide) rfl ?_
    change ∀ p ∈ [(Value.var 2, _), (.var 2, _)], _
    rw [forall_mem_cons, forall_mem_singleton]
    exact ⟨hempty, hempty⟩
  have hnot := hpair.not_cyclic hknot (by decide)
  obtain ⟨-, hmarked, -⟩ := render_tree hknot (v := .var 0) (by decide)
  exact ⟨hmarked.mpr hcyclic, by cbv, hnot, by cbv⟩

end Store

end ActorLang
