import ActorLang.Store.Portable
import Mathlib.Data.Int.CharZero
import Mathlib.Data.List.Nodup

/-!
# Records as finite maps

The features of a record are in a strict order, whatever it was built by.  So a record is a finite
map from features to values, and records that map the same features to the same values are the same.
-/

namespace ActorLang

open List Std

/-! ### The order of features -/

namespace Feature

/-- The number of a feature that is one, or is ordered as one. -/
def number : Feature → Int
  | bool b => b.toNat
  | int32 n => n.toInt
  | int64 n => n.toInt
  | char c => c.toNat
  | token n => n
  | str _ | null | eof => 0

def text : Feature → String
  | str s => s
  | _ => ""

theorem compare_eq :
  Feature.compare = compareLex (compareOn rank) (compareLex (compareOn number) (compareOn text))
  := by
  have hnat (m n : Nat) : Ord.compare (m : Int) n = Ord.compare m n := by
    rw [Int.compare_eq_ite_lt, Nat.compare_eq_ite_lt]
    simp
  funext f g
  cases f <;> cases g <;>
    first | rfl | simp [Feature.compare, compareLex, compareOn, rank, number, text, hnat]
  case bool.bool a b => cases a <;> cases b <;> rfl

instance : TransCmp Feature.compare := by
  rw [compare_eq]
  infer_instance

instance : LawfulEqCmp Feature.compare where
  eq_of_compare {f g} h := by
    simp only [compare_eq, compareLex_eq_eq, compareOn, LawfulEqOrd.compare_eq_iff_eq] at h
    cases f <;> cases g <;>
      simp_all [rank, number, text, Int32.toInt_inj, Int64.toInt_inj]
    case bool.bool a b => cases a <;> cases b <;> first | rfl | cases h
    case char.char => exact Char.toNat_inj.mp h

end Feature

/-! ### Fields in order -/

namespace Record

variable {fields : List (Feature × Leaf)} {f g : Feature} {v : Leaf} {r r' other : Record} {P : Leaf → Prop}

/-- The features are in a strict order. -/
def Increasing (fields : List (Feature × Leaf)) : Prop :=
  (fields.map (·.1)).Pairwise (·.compare · = .lt)

def Ordered (r : Record) : Prop := Increasing r.fields

instance (r : Record) : Decidable r.Ordered := inferInstanceAs (Decidable (List.Pairwise _ _))

theorem Ordered.distinct (h : r.Ordered) :
  (r.fields.map (·.1)).Nodup
  := by
  refine h.imp fun {f g} hlt heq => ?_
  have hself : g.compare g = .eq := ReflCmp.compare_self
  rw [heq, hself] at hlt
  cases hlt

theorem get?_eq_of_mem (hdistinct : (r.fields.map (·.1)).Nodup) (h : (f, v) ∈ r.fields) :
  r.get? f = some v
  := by
  rw [get?, Option.map_eq_some_iff]
  refine ⟨(f, v), ?_, rfl⟩
  cases hfind : r.fields.find? (·.1 = f) with
  | none =>
    exfalso
    apply List.find?_eq_none.mp hfind _ h
    simp
  | some g =>
    have hg : g.1 = f := by
      simpa using List.find?_some hfind
    have hmem := mem_of_find?_eq_some hfind
    rw [inj_on_of_nodup_map hdistinct hmem h hg]

theorem mem_of_get? (h : r.get? f = some v) :
  (f, v) ∈ r.fields
  := by
  obtain ⟨field, hfind, rfl⟩ := Option.map_eq_some_iff.mp h
  obtain rfl : field.1 = f := by simpa using find?_some hfind
  exact mem_of_find?_eq_some hfind

theorem isSome_get?_iff :
  (r.get? f).isSome ↔ f ∈ r.fields.map (·.1)
  := by
  simp [get?]

theorem features_subset (h : ∀ f leaf, r.get? f = some leaf → ∃ leaf', r'.get? f = some leaf') :
  r.fields.map (·.1) ⊆ r'.fields.map (·.1)
  := by
  intro f hf
  obtain ⟨leaf, hleaf⟩ := Option.isSome_iff_exists.mp (isSome_get?_iff.mpr hf)
  obtain ⟨_, hleaf'⟩ := h f leaf hleaf
  exact isSome_get?_iff.mp (Option.isSome_of_eq_some hleaf')

theorem eq_of_increasing {α : Type} (key : α → Feature) {l l' : List α}
    (h : l.Pairwise fun a b => (key a).compare (key b) = .lt)
    (h' : l'.Pairwise fun a b => (key a).compare (key b) = .lt) (hmem : ∀ a, a ∈ l ↔ a ∈ l') :
  l = l'
  := by
  have hne {a b : α} (hlt : (key a).compare (key b) = .lt) : a ≠ b := by
    rintro rfl
    cases hlt.symm.trans ReflCmp.compare_self
  have hperm := (perm_ext_iff_of_nodup (h.imp hne) (h'.imp hne)).mpr hmem
  refine hperm.eq_of_pairwise ?_ h h'
  intro a b _ _ hab hba
  cases hab.symm.trans (OrientedCmp.gt_iff_lt.mpr hba)

theorem Ordered.ext (h : r.Ordered) (h' : r'.Ordered) (hlabel : r.label = r'.label) (hget : ∀ f, r.get? f = r'.get? f) :
  r = r'
  := by
  have hfields : r.fields = r'.fields := by
    refine eq_of_increasing (·.1) (pairwise_map.mp h) (pairwise_map.mp h') fun field => ⟨fun hm => ?_, fun hm => ?_⟩
    · exact mem_of_get? (hget _ ▸ get?_eq_of_mem h.distinct hm)
    · exact mem_of_get? (hget _ ▸ get?_eq_of_mem h'.distinct hm)
  cases r
  cases hlabel
  cases hfields
  rfl

/-! ### Assignment -/

theorem find?_insertField (fields : List (Feature × Leaf)) :
  (insertField f v fields).find? (·.1 = g) = if f = g then some (f, v) else fields.find? (·.1 = g)
  := by
  fun_induction insertField f v fields with grind

theorem mem_features_insertField :
  g ∈ (insertField f v fields).map (·.1) ↔ g = f ∨ g ∈ fields.map (·.1)
  := by
  fun_induction insertField f v fields with
  | case1 => simp
  | case2 _ _ _ _ ih => simp [ih, or_left_comm]
  | case3 _ _ _ heq =>
    obtain rfl := LawfulEqCmp.eq_of_compare heq
    simp
  | case4 => simp

theorem Increasing.insertField (h : Increasing fields) (f : Feature) (v : Leaf) :
  Increasing (insertField f v fields)
  := by
  fun_induction Record.insertField f v fields with
  | case1 => simp [Increasing]
  | case2 w g _ hlt ih =>
    obtain ⟨hfirst, hrest⟩ := pairwise_cons.mp h
    refine pairwise_cons.mpr ⟨fun k hk => ?_, ih hrest⟩
    obtain rfl | hk := mem_features_insertField.mp hk
    · exact hlt
    · exact hfirst k hk
  | case3 => exact h
  | case4 w g _ hgt =>
    refine pairwise_cons.mpr ⟨fun k hk => ?_, h⟩
    have hlt := OrientedCmp.gt_iff_lt.mp hgt
    obtain rfl | hk := mem_cons.mp hk
    · exact hlt
    · exact TransCmp.lt_trans hlt ((pairwise_cons.mp h).1 k hk)

/-- The fields of the other record come first. -/
theorem get?_assign (hother : (other.fields.map (·.1)).Nodup) :
  (r.assign other).get? f = (other.get? f).or (r.get? f)
  := by
  obtain ⟨_, fields⟩ := r
  obtain ⟨_, added⟩ := other
  simp only [assign, get?] at *
  induction added generalizing fields with
  | nil => simp
  | cons field rest ih =>
    obtain ⟨hfirst, hrest⟩ := nodup_cons.mp hother
    rw [foldl_cons, ih _ hrest, find?_insertField]
    by_cases hf : field.1 = f
    · have hnone : rest.find? (·.1 = f) = none := by
        refine List.find?_eq_none.mpr fun field' hmem heq => hfirst ?_
        exact mem_map.mpr ⟨field', hmem, (of_decide_eq_true heq).trans hf.symm⟩
      simp [hf, hnone]
    · simp [hf]

theorem Ordered.assign (h : r.Ordered) (other : Record) :
  (r.assign other).Ordered
  := foldlRecOn _ _ h fun _ hfields _ _ => hfields.insertField _ _

theorem forall_insertField (hv : P v) (hfields : ∀ g ∈ fields, P g.2) :
  ∀ g ∈ insertField f v fields, P g.2
  := by
  induction fields with
  | nil => exact forall_mem_singleton.mpr hv
  | cons _ _ ih =>
    obtain ⟨hw, hrest⟩ := forall_mem_cons.mp hfields
    rw [insertField]
    split
    · exact forall_mem_cons.mpr ⟨hw, ih hrest⟩
    · exact forall_mem_cons.mpr ⟨hv, hrest⟩
    · exact forall_mem_cons.mpr ⟨hv, hfields⟩

theorem forall_assign (hr : ∀ f ∈ r.fields, P f.2) (hother : ∀ f ∈ other.fields, P f.2) :
  ∀ f ∈ (r.assign other).fields, P f.2
  := by
  rw [assign]
  generalize other.fields = fields at hother
  generalize r.fields = own at hr
  induction fields generalizing own with
  | nil => exact hr
  | cons _ _ ih =>
    obtain ⟨hfield, hrest⟩ := forall_mem_cons.mp hother
    exact ih hrest _ (forall_insertField hfield hr)

/-! ### Sorting -/

abbrev Sorted (fields : List (Feature × Leaf)) : Prop :=
  fields.Pairwise fun a b => (a.1.compare b.1).isLE

theorem sorted_sortFields (fields : List (Feature × Leaf)) :
  Sorted (sortFields fields)
  := by
  have hle (a b : Feature × Leaf) : (a.1.compare b.1 != .gt) = (a.1.compare b.1).isLE := by
    cases a.1.compare b.1 <;> rfl
  rw [sortFields]
  simp only [hle]
  refine pairwise_mergeSort (fun a b c => TransCmp.isLE_trans) (fun a b => ?_) fields
  have hswap : a.1.compare b.1 = (b.1.compare a.1).swap := OrientedCmp.eq_swap
  rw [hswap]
  cases b.1.compare a.1 <;> rfl

theorem Sorted.lt {a b : Feature × Leaf} (h : Sorted (a :: b :: fields)) (hne : a.1 ≠ b.1) :
  ∀ g ∈ (b :: fields).map (·.1), a.1.compare g = .lt
  := by
  intro g hg
  obtain ⟨hfirst, hrest⟩ := pairwise_cons.mp h
  have hlt : a.1.compare b.1 = .lt := by
    refine (Ordering.isLE_iff_eq_lt_or_eq_eq.mp (hfirst b mem_cons_self)).resolve_right ?_
    exact fun heq => hne (LawfulEqCmp.eq_of_compare heq)
  obtain ⟨field, hfield, rfl⟩ := mem_map.mp hg
  obtain rfl | hfield := mem_cons.mp hfield
  · exact hlt
  · exact TransCmp.lt_of_lt_of_isLE hlt ((pairwise_cons.mp hrest).1 field hfield)

theorem increasing_of_repeated? (hsorted : Sorted fields) (h : repeated? fields = none) :
  Increasing fields
  := by
  fun_induction repeated? fields with
  | case1 => cases h
  | case2 a b _ hne ih => exact pairwise_cons.mpr ⟨hsorted.lt hne, ih hsorted.of_cons h⟩
  | case3 fields hshort =>
    rcases fields with _ | ⟨a, _ | ⟨b, rest⟩⟩
    · exact .nil
    · exact pairwise_singleton _ _
    · exact (hshort a b rest rfl).elim

theorem least_of_repeated? (hsorted : Sorted fields) (h : repeated? fields = some f) :
  2 ≤ (fields.map (·.1)).count f ∧ ∀ g, 2 ≤ (fields.map (·.1)).count g → (f.compare g).isLE
  := by
  fun_induction repeated? fields with
  | case1 a b _ heq =>
    obtain rfl : a.1 = f := Option.some.inj h
    refine ⟨by simp [← heq], fun g hg => ?_⟩
    obtain ⟨field, hfield, rfl⟩ := mem_map.mp (count_pos_iff.mp (Nat.lt_of_succ_lt hg))
    obtain rfl | hfield := mem_cons.mp hfield
    · have hself : field.1.compare field.1 = .eq := ReflCmp.compare_self
      rw [hself]
      rfl
    · exact (pairwise_cons.mp hsorted).1 field hfield
  | case2 a b _ hne ih =>
    obtain ⟨hcount, hleast⟩ := ih hsorted.of_cons h
    refine ⟨Nat.le_trans hcount count_le_count_cons, fun g hg => hleast g ?_⟩
    rwa [map_cons, count_cons_of_ne] at hg
    rintro rfl
    rw [count_cons_self] at hg
    have hlt := hsorted.lt hne _ (count_pos_iff.mp (Nat.lt_of_succ_lt_succ hg))
    cases hlt.symm.trans ReflCmp.compare_self
  | case3 => cases h

section

variable {label : Option Feature}

theorem ofFields_eq_ok (h : ofFields label fields = .ok r) :
  r.Ordered ∧ r.label = label ∧ r.fields ~ fields
  := by
  rw [ofFields] at h
  split at h
  case h_1 => cases h
  case h_2 hnone =>
    cases h
    exact ⟨increasing_of_repeated? (sorted_sortFields fields) hnone, rfl, mergeSort_perm ..⟩

theorem ofFields_eq_error (h : ofFields label fields = .error f) :
  2 ≤ (fields.map (·.1)).count f ∧ ∀ g, 2 ≤ (fields.map (·.1)).count g → (f.compare g).isLE
  := by
  rw [ofFields] at h
  split at h
  case h_1 hsome =>
    cases h
    have hcount (g : Feature) : ((sortFields fields).map (·.1)).count g = (fields.map (·.1)).count g :=
      ((mergeSort_perm fields _).map (·.1)).count_eq g
    have hleast := least_of_repeated? (sorted_sortFields fields) hsome
    simpa only [hcount] using hleast
  case h_2 => cases h

end

theorem ordered_tuple (label : Option Feature) (values : List Leaf) (h : values.length < 2 ^ 31) :
  (tuple label values).Ordered
  := by
  have hfeatures : (tuple label values).fields.map (·.1) = (range' 0 values.length).map position := by
    rw [tuple, map_map, ← zipIdx_map_snd, map_map]
    rfl
  rw [Ordered, Increasing, hfeatures, pairwise_map]
  refine (pairwise_lt_range').imp_of_mem fun {i j} _ hj hij => ?_
  have hlt : j < 2 ^ 31 := by
    have := (mem_range'_1.mp hj).2
    omega
  rw [position, position, Feature.compare, Int32.toInt_ofNat_of_lt hlt,
    Int32.toInt_ofNat_of_lt (Nat.lt_trans hij hlt), Int.compare_eq_lt]
  exact Int.ofNat_lt.mpr hij

theorem Ordered.withValues (h : r.Ordered) (values : List Leaf) :
  (r.withValues values).Ordered
  := by
  rw [Ordered, Increasing, Record.withValues, zip_eq_zip_take_min, map_fst_zip (by simp)]
  exact h.sublist (take_sublist _ _)

theorem copy_eq_withValues (s : Store) (ren : Store.Renaming) (r : Record) (out : Store) :
  ∃ values, Record.mk r.label (s.copyFields ren r.fields out).1 = r.withValues values
  := by
  have hfeatures (fields : List (Feature × Leaf)) :
      (s.copyFields ren fields out).1.map (·.1) = fields.map (·.1) := by
    fun_induction Store.copyFields s ren fields out with simp_all
  refine ⟨(s.copyFields ren r.fields out).1.map (·.2), ?_⟩
  rw [Record.withValues, ← hfeatures]
  exact congrArg _ (zip_of_prod rfl rfl)

theorem ofFields_fails_iff {label : Option Feature} :
  (∃ f, ofFields label fields = .error f) ↔ ¬ (fields.map (·.1)).Nodup
  := by
  constructor
  · rintro ⟨f, h⟩ hnodup
    have := nodup_iff_count.mp hnodup f
    have := (ofFields_eq_error h).1
    omega
  · intro h
    cases hok : ofFields label fields with
    | error f => exact ⟨f, rfl⟩
    | ok =>
      obtain ⟨hordered, -, hperm⟩ := ofFields_eq_ok hok
      exact (h ((hperm.map _).nodup hordered.distinct)).elim

theorem assign_assoc {a b c : Record} (ha : a.Ordered) (hb : b.Ordered) (hc : c.Ordered) :
  (a.assign b).assign c = a.assign (b.assign c)
  := by
  refine ((ha.assign b).assign c).ext (ha.assign _) rfl fun f => ?_
  rw [get?_assign hc.distinct, get?_assign hb.distinct, get?_assign (hb.assign c).distinct,
    get?_assign hc.distinct, Option.or_assoc]

theorem assign_self (h : r.Ordered) :
  r.assign r = r
  := by
  refine (h.assign r).ext h rfl fun f => ?_
  rw [get?_assign h.distinct, Option.or_self]

/-- Whatever a record is built by, it is a finite map with its features in order. -/
theorem record_finiteMap :
  ((∀ label fields r, ofFields label fields = .ok r → r.Ordered) ∧
    (∀ label entries, (ofMap label entries).Ordered) ∧
    (∀ label values, values.length < 2 ^ 31 → (tuple label values).Ordered) ∧
    (∀ r values, Ordered r → (r.withValues values).Ordered) ∧
    (∀ (s : Store) ren (r : Record) out, ∃ values,
      Record.mk r.label (s.copyFields ren r.fields out).1 = r.withValues values) ∧
    (∀ r other, Ordered r → (r.assign other).Ordered) ∧
    ∀ name message, (error name message).Ordered) ∧
  (∀ f g : Feature, f.rank < g.rank → f.compare g = .lt) ∧
  (∀ label fields,
    ((∃ f, ofFields label fields = .error f) ↔ ¬ (fields.map (·.1)).Nodup) ∧
    (∀ f, ofFields label fields = .error f → 2 ≤ (fields.map (·.1)).count f ∧
      ∀ g, 2 ≤ (fields.map (·.1)).count g → (f.compare g).isLE) ∧
    ∀ r, ofFields label fields = .ok r → r.label = label ∧ r.fields ~ fields) ∧
  ∀ a b c : Record, a.Ordered → b.Ordered → c.Ordered →
    (∀ f v, a.get? f = some v ↔ (f, v) ∈ a.fields) ∧
    ((a.assign b).label = a.label ∧ ∀ f, (a.assign b).get? f = (b.get? f).or (a.get? f)) ∧
    (a.assign b).assign c = a.assign (b.assign c) ∧ a.assign a = a
  := by
  refine ⟨⟨fun _ _ _ h => (ofFields_eq_ok h).1, fun label entries => ?_, ordered_tuple,
    fun _ values h => h.withValues values, copy_eq_withValues, fun _ other h => h.assign other, fun _ _ => ?_⟩, ?_,
    fun label fields => ⟨ofFields_fails_iff, fun f => ofFields_eq_error, fun r h => (ofFields_eq_ok h).2⟩,
    fun a b c ha hb hc => ⟨fun f v => ⟨mem_of_get?, get?_eq_of_mem ha.distinct⟩,
      ⟨rfl, fun f => get?_assign hb.distinct⟩, assign_assoc ha hb hc, assign_self ha⟩⟩
  · exact Ordered.assign (r := ⟨label, []⟩) Pairwise.nil _
  · exact pairwise_pair.mpr (show Feature.compare (.str "message") (.str "name") = .lt by decide)
  · intro f g h
    rw [Feature.compare_eq, compareLex, compareOn, Nat.compare_eq_lt.mpr h]
    rfl

end Record

end ActorLang
