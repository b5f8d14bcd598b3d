import ActorLang.Proofs.Store.Faithful
import ActorLang.Proofs.Store.MostGeneral
import ActorLang.Proofs.Store.Records

/-!
# Equality along paths

A path of features leads from a value to a value inside of it, round any cycle, and equality is
equality along paths.  The lenient comparison, which waits for nothing, fails precisely where the
comparison finds a difference, so that this is a matter of simulations.
-/

namespace ActorLang

open List

/-! ### Comparisons that wait for nothing -/

/-- The comparison in which a variable agrees with everything. -/
def Comparison.lenient (c : Comparison) : Comparison where
  waits _ _ := none
  fields? := c.fields?

namespace Store

open Comparison

theorem compareAll_lenient (s : Store) (c : Comparison) (seen : List (RecordId × RecordId))
    (waiting : Option VarId) (work : List (Value × Value)) :
  s.compareAll c.lenient seen none work = .ok (decide (s.compareAll c seen waiting work ≠ .ok false))
  := by
  fun_induction compareAll s c seen waiting work with
  | case1 | case2 => simp [compareAll]
  | case3 | case4 | case5 | case6 | case7 | case8 | case9 =>
    rw [compareAll]
    simp_all [lenient]
  | case10 seen _ left right rest _ _ _ ih =>
    have hstep : s.compareAll c.lenient seen none ((left, right) :: rest) = s.compareAll c.lenient seen none rest := by
      rw [compareAll]
      simp [lenient]
    rw [hstep, ih]

/-- A comparison finds no difference precisely between values that a simulation of the lenient
comparison relates. -/
theorem compareAll_ne_false_iff {s : Store} {c : Comparison} (hs : s.WellFormed)
    (hc : c.FieldWise) {a b : Value} (ha : a.Within s) (hb : b.Within s) :
  s.compareAll c [] none [(a, b)] ≠ .ok false ↔ c.lenient.Related s [] [(a, b)]
  := by
  have hlenient := s.compareAll_lenient c [] none [(a, b)]
  constructor
  · intro h
    rw [decide_eq_true h] at hlenient
    apply (related_of_compareAll hlenient).2
  · rintro ⟨R, hR, hab⟩
    have hpair : ∀ p ∈ [(a, b)], R p.1 p.2 ∧ p.1.Within s ∧ p.2.Within s := by
      intro p hp
      have hRp := hab p hp
      rw [mem_singleton] at hp
      subst hp
      exact ⟨hRp, ha, hb⟩
    have htrue : s.compareAll c.lenient [] none [(a, b)] = .ok true :=
      compareAll_of_simulates hs hc hR rfl hpair
    rw [hlenient] at htrue
    apply of_decide_eq_true (Except.ok.inj htrue)

end Store

/-! ### Fields by their features -/

namespace Record

variable {r r' : Record} {f : Feature} {leaf leaf' : Leaf}

theorem mem_zip_of_get? (hfeatures : r.fields.map (·.1) = r'.fields.map (·.1))
    (h : r.get? f = some leaf) (h' : r'.get? f = some leaf') :
  (leaf.toValue, leaf'.toValue) ∈ r.values.zip r'.values
  := by
  obtain ⟨_, fields⟩ := r
  obtain ⟨_, fields'⟩ := r'
  simp only [get?, values] at *
  induction fields generalizing fields' with
  | nil => simp at h
  | cons g _ ih =>
    cases fields' with
    | nil => simp at h'
    | cons g' rest' =>
      simp only [map_cons, cons.injEq] at hfeatures
      rw [List.find?_cons] at h h'
      rw [← hfeatures.1] at h'
      rw [map_cons, map_cons, zip_cons_cons, mem_cons]
      by_cases hg : g.1 = f
      · simp only [hg, decide_true, Option.map_some, Option.some.injEq] at h h'
        left
        rw [h, h']
      · simp only [hg] at h h'
        right
        apply ih h rest' h' hfeatures.2

theorem get?_of_mem_fieldPairs? {pairs : List (Value × Value)} {p : Value × Value}
    (hdistinct : (r.fields.map (·.1)).Nodup) (hpairs : r.fieldPairs? r' = some pairs) (hp : p ∈ pairs) :
  ∃ f leaf leaf', r.get? f = some leaf ∧ r'.get? f = some leaf' ∧ p = (leaf.toValue, leaf'.toValue)
  := by
  obtain ⟨-, hfeatures, -⟩ := fieldPairs?_eq_some_iff.mp hpairs
  obtain ⟨k, hleft, hright⟩ := (mem_fieldPairs?_iff hpairs).mp hp
  rw [values, List.getElem?_map, Option.map_eq_some_iff] at hleft hright
  obtain ⟨⟨f, leaf⟩, hf, hleft⟩ := hleft
  obtain ⟨⟨f', leaf'⟩, hf', hright⟩ := hright
  obtain rfl : f = f' := by
    have hkth := congrArg (·[k]?) hfeatures
    simpa [hf, hf'] using hkth
  refine ⟨f, leaf, leaf', get?_eq_of_mem hdistinct (mem_of_getElem? hf),
    get?_eq_of_mem (hfeatures ▸ hdistinct) (mem_of_getElem? hf'), Prod.ext hleft.symm hright.symm⟩

end Record

/-! ### Paths -/

namespace Store

open Comparison

variable {s : Store} {a b v w : Value} {f : Feature} {path : List Feature}
variable {d e : Datum} {x : VarId} {c : Comparison} {R : Value → Value → Prop}

/-- What stands at the end of a path of features: a datum, or the variable at the end of a chain
of links. -/
def lookAt? (s : Store) (v : Value) (path : List Feature) : Option Value :=
  (s.at? v (path.map .field)).map s.resolve

theorem at?_cons_eq_some_iff {steps : List Step} :
  s.at? v (.field f :: steps) = some w ↔ ∃ id leaf, s.resolve v = .datum (.record id) ∧
    (s.record id).get? f = some leaf ∧ s.at? leaf.toValue steps = some w
  := by
  rw [at?]
  cases s.resolve v with
  | var => simp
  | datum d =>
    cases d with
    | scalar => simp [part?]
    | record id =>
      cases hget : (s.record id).get? f with
      | none => simp [part?, hget]
      | some => simp [part?, hget]

theorem lookAt?_cons_eq_some_iff :
  s.lookAt? v (f :: path) = some w ↔ ∃ id leaf, s.resolve v = .datum (.record id) ∧
    (s.record id).get? f = some leaf ∧ s.lookAt? leaf.toValue path = some w
  := by
  simp only [lookAt?, map_cons, Option.map_eq_some_iff, at?_cons_eq_some_iff]
  grind

theorem at?_append (s : Store) (v : Value) (steps rest : List Step) :
  s.at? v (steps ++ rest) = (s.at? v steps).bind (s.at? · rest)
  := by
  induction steps generalizing v with
  | nil => rfl
  | cons _ _ ih =>
    simp only [cons_append, at?]
    cases s.resolve v with
    | var => rfl
    | datum => simp only [Option.bind_assoc, ih]

theorem at?_concat {id : RecordId} {leaf : Leaf} (hv : s.at? a (path.map .field) = some v)
    (hid : s.resolve v = .datum (.record id)) (hleaf : (s.record id).get? f = some leaf) :
  s.at? a ((path ++ [f]).map .field) = some leaf.toValue
  := by
  rw [map_append, at?_append, hv]
  simp [at?, hid, part?, hleaf]

theorem reaches_of_at? (h : s.at? a (path.map .field) = some v) :
  s.Reaches a v
  := by
  induction path generalizing a with
  | nil =>
    cases h
    exact Reaches.self
  | cons f _ ih =>
    obtain ⟨id, _, hid, hleaf, h⟩ := at?_cons_eq_some_iff.mp h
    obtain ⟨g, hg, rfl⟩ := Option.map_eq_some_iff.mp hleaf
    have hrecord : s.Reaches a (.datum (.record id)) := hid ▸ Reaches.self.resolve
    exact (hrecord.field (mem_map.mpr ⟨g, mem_of_find?_eq_some hg, rfl⟩)).trans (ih h)

/-- The data differ: they are of different kinds, different atoms, or records with different
labels or different features. -/
def Differ (s : Store) : Datum → Datum → Prop
  | .scalar p, .scalar q => p.same q = false
  | .record i, .record j => (s.record i).label ≠ (s.record j).label ∨
      (s.record i).fields.map (·.1) ≠ (s.record j).fields.map (·.1)
  | .scalar _, .record _ => True
  | .record _, .scalar _ => True

/-- A path leads from both values to data that differ. -/
def Clash (s : Store) (a b : Value) : Prop :=
  ∃ path d e, s.lookAt? a path = some (.datum d) ∧ s.lookAt? b path = some (.datum e) ∧ s.Differ d e

/-- A path leads from one of the values to the unbound variable, and from the other one to
another variable or to a datum. -/
def OpenAt (s : Store) (a b : Value) (x : VarId) : Prop :=
  ∃ path v w, s.lookAt? a path = some v ∧ s.lookAt? b path = some w ∧ v ≠ w ∧ (v = .var x ∨ w = .var x)

/-! ### What a comparison finds lies on a path -/

/-- A well-formed store in which no record has a feature twice. -/
structure Regular (s : Store) : Prop extends s.WellFormed where
  distinct : ∀ id, ((s.record id).fields.map (·.1)).Nodup

/-- No record that a path leads to has a feature twice. -/
def Distinct (s : Store) (a : Value) : Prop :=
  ∀ path id, s.lookAt? a path = some (.datum (.record id)) → ((s.record id).fields.map (·.1)).Nodup

/-- A path leads from the one value to the left side of the pair, and from the other value to its
right side. -/
def Meets (s : Store) (a b : Value) (p : Value × Value) : Prop :=
  ∃ path : List Feature, s.at? a (path.map .field) = some p.1 ∧ s.at? b (path.map .field) = some p.2

theorem Meets.clash (h : s.Meets a b (v, w)) (hv : s.resolve v = .datum d)
    (hw : s.resolve w = .datum e) (hdiffer : s.Differ d e) :
  s.Clash a b
  := by
  obtain ⟨path, ha, hb⟩ := h
  refine ⟨path, d, e, ?_, ?_, hdiffer⟩
  · rw [lookAt?, ha, Option.map_some, hv]
  · rw [lookAt?, hb, Option.map_some, hw]

theorem Meets.openAt (h : s.Meets a b (v, w)) (hx : equality.waits (s.resolve v) (s.resolve w) = some x) :
  s.OpenAt a b x
  := by
  obtain ⟨path, ha, hb⟩ := h
  have hsides : s.resolve v ≠ s.resolve w ∧ (s.resolve v = .var x ∨ s.resolve w = .var x) := by
    cases hv : s.resolve v with
    | var y =>
      cases hw : s.resolve w with
      | var z =>
        rw [hv, hw] at hx
        by_cases hyz : y = z
        · simp [equality, hyz] at hx
        · simp_all [equality]
      | datum =>
        simp_all [equality]
    | datum =>
      cases hw : s.resolve w with
      | var =>
        simp_all [equality]
      | datum =>
        rw [hv, hw] at hx
        cases hx
  refine ⟨path, s.resolve v, s.resolve w, ?_, ?_, hsides⟩
  · rw [lookAt?, ha, Option.map_some]
  · rw [lookAt?, hb, Option.map_some]

theorem Meets.field {i j : RecordId} {pairs : List (Value × Value)} {p : Value × Value}
    (hdistinct : s.Distinct a) (h : s.Meets a b (v, w)) (hv : s.resolve v = .datum (.record i))
    (hw : s.resolve w = .datum (.record j))
    (hpairs : (s.record i).fieldPairs? (s.record j) = some pairs) (hp : p ∈ pairs) :
  s.Meets a b p
  := by
  obtain ⟨path, ha, hb⟩ := h
  have hnodup := hdistinct path i (by rw [lookAt?, ha, Option.map_some, hv])
  obtain ⟨f, _, _, hleaf, hleaf', rfl⟩ := Record.get?_of_mem_fieldPairs? hnodup hpairs hp
  exact ⟨path ++ [f], at?_concat ha hv hleaf, at?_concat hb hw hleaf'⟩

theorem agrees_of_not_differ (h : ¬ s.Differ d e) :
  equality.Agrees s [] (fun _ _ => True) (.datum d) (.datum e)
  := by
  cases d with
  | scalar =>
    cases e with
    | scalar => exact .scalar (by simpa [Differ] using h)
    | record => exact absurd trivial h
  | record =>
    cases e with
    | scalar => exact absurd trivial h
    | record =>
      rw [Differ, not_or, not_not, not_not] at h
      exact .fields (Record.fieldPairs?_eq_some_iff.mpr ⟨h.1, h.2, rfl⟩) fun _ _ => trivial

theorem found_of_compareAll (hs : s.WellFormed) (hdistinct : s.Distinct a)
    {seen : List (RecordId × RecordId)} {waiting : Option VarId} {work : List (Value × Value)}
    (hwork : ∀ p ∈ work, s.Meets a b p ∧ p.1.Within s ∧ p.2.Within s)
    (hwaiting : ∀ x ∈ waiting, s.OpenAt a b x) :
  (s.compareAll equality seen waiting work = .ok false → s.Clash a b) ∧
  ∀ x, s.compareAll equality seen waiting work = .error x → s.OpenAt a b x
  := by
  have hcases := s.compareAll_cases equality seen waiting (D := s.Clash a b)
    (P := fun v w => s.Meets a b (v, w) ∧ v.Within s ∧ w.Within s) ?_ ?_ ?_ hwaiting hwork
  · rcases hcases with h | ⟨h, hclash⟩ | ⟨y, h, hopen⟩
    · simp [h]
    · simpa [h] using hclash
    · simpa [h] using hopen
  · rintro v w i j ⟨hmeets, -, -⟩ hi hj - _ hpairs p hp
    have hmem := equality_fieldWise _ _ _ hpairs p hp
    exact ⟨hmeets.field hdistinct hi hj hpairs hp, hs.fields i _ hmem.1, hs.fields j _ hmem.2⟩
  · rintro v w d e ⟨hmeets, hv, hw⟩ hd he hclash
    refine hmeets.clash hd he (by_contra fun hdiffer => ?_)
    exact hclash (hd ▸ hs.resolve_within hv) (he ▸ hs.resolve_within hw) (agrees_of_not_differ hdiffer)
  · exact fun v w x hpair _ hx => hpair.1.openAt hx

/-! ### Paths stay inside of simulations -/

theorem related_of_lookAt? (hc : c.fields? = Record.fieldPairs?) (hR : c.Simulates s [] R)
    (hab : R a b ∨ a = b) (ha : s.lookAt? a path = some v) (hb : s.lookAt? b path = some w) :
  c.Agrees s [] R v w ∨ v = w
  := by
  induction path generalizing a b with
  | nil =>
    cases ha
    cases hb
    rcases hab with hab | rfl
    · apply Or.inl (hR a b hab)
    · apply Or.inr rfl
  | cons f _ ih =>
    obtain ⟨i, leaf, hi, hleaf, ha⟩ := lookAt?_cons_eq_some_iff.mp ha
    obtain ⟨j, leaf', hj, hleaf', hb⟩ := lookAt?_cons_eq_some_iff.mp hb
    apply ih _ ha hb
    have hsame (heq : i = j) : R leaf.toValue leaf'.toValue ∨ leaf.toValue = leaf'.toValue := by
      right
      rw [heq, hleaf', Option.some.injEq] at hleaf
      rw [hleaf]
    rcases hab with hab | rfl
    · have hagree := hR a b hab
      rw [hi, hj, agrees_record_iff, hc] at hagree
      rcases hagree with heq | ⟨_, hpairs, hrel⟩
      · apply hsame heq
      · left
        obtain ⟨-, hfeatures, rfl⟩ := Record.fieldPairs?_eq_some_iff.mp hpairs
        apply hrel _ (Record.mem_zip_of_get? hfeatures hleaf hleaf')
    · apply hsame
      rw [hi] at hj
      cases hj
      rfl

theorem not_differ_of_agrees (hc : c.fields? = Record.fieldPairs?) (h : c.Agrees s [] R (.datum d) (.datum e)) :
  ¬ s.Differ d e
  := by
  intro hdiffer
  rcases h.data_cases with ⟨p, q, rfl, rfl⟩ | ⟨i, j, rfl, rfl⟩
  · rw [agrees_scalar_iff] at h
    rw [Differ, h] at hdiffer
    cases hdiffer
  · rw [agrees_record_iff, hc] at h
    rw [Differ] at hdiffer
    rcases h with rfl | ⟨_, hpairs, -⟩
    · simp at hdiffer
    · obtain ⟨hlabel, hfeatures, -⟩ := Record.fieldPairs?_eq_some_iff.mp hpairs
      simp [hlabel, hfeatures] at hdiffer

theorem not_differ_self (h : ∀ p, d = .scalar p → ¬ p.IsNaN) :
  ¬ s.Differ d d
  := by
  cases d with
  | scalar p => simp [Differ, Scalar.same_self (h p rfl)]
  | record => simp [Differ]

theorem NaNFree.lookAt? (h : s.NaNFree a) (ha : s.lookAt? a path = some (.datum d)) :
  ∀ p, d = .scalar p → ¬ p.IsNaN
  := by
  rintro p rfl
  obtain ⟨v, hv, hres⟩ := Option.map_eq_some_iff.mp ha
  apply h p
  rw [← hres]
  exact (reaches_of_at? hv).resolve

/-- No path leads from related values to data that differ. -/
theorem not_clash_of_simulates (hc : c.fields? = Record.fieldPairs?) (hR : c.Simulates s [] R)
    (hab : R a b) (hfree : s.NaNFree a) :
  ¬ s.Clash a b
  := by
  rintro ⟨_, d, e, ha, hb, hdiffer⟩
  rcases related_of_lookAt? hc hR (Or.inl hab) ha hb with hagree | heq
  · apply not_differ_of_agrees hc hagree hdiffer
  · cases heq
    apply not_differ_self (hfree.lookAt? ha) hdiffer

/-- Every path that leads from bisimilar values to a variable leads from both to the same one. -/
theorem Bisimilar.not_openAt (h : s.Bisimilar a b) (x : VarId) :
  ¬ s.OpenAt a b x
  := by
  rintro ⟨_, v, w, ha, hb, hne, hx⟩
  obtain ⟨R, hR, hab⟩ := h
  rcases related_of_lookAt? rfl hR (Or.inl hab) ha hb with hagree | heq
  · apply hne
    apply (waits_equality_iff hx).mp
    apply hagree.waits_eq_none
    rintro d e rfl rfl
    simp at hx
  · apply hne heq

/-! ### Equality is path equality -/

theorem found_of_equals (hs : s.WellFormed) (hdistinct : s.Distinct a) (ha : a.Within s) (hb : b.Within s) :
  (s.equals a b = .ok false → s.Clash a b) ∧ ∀ x, s.equals a b = .error x → s.OpenAt a b x
  := by
  apply found_of_compareAll hs hdistinct _ (by simp)
  rw [forall_mem_singleton]
  exact ⟨⟨[], rfl, rfl⟩, ha, hb⟩

theorem equals_eq_ok_false_iff (hs : s.Regular) (ha : a.Within s) (hb : b.Within s) (hfree : s.NaNFree a) :
  s.equals a b = .ok false ↔ s.Clash a b
  := by
  constructor
  · exact (found_of_equals hs.toWellFormed (fun _ id _ => hs.distinct id) ha hb).1
  · intro hclash
    by_contra hne
    obtain ⟨R, hR, hab⟩ :=
      (compareAll_ne_false_iff hs.toWellFormed equality_fieldWise ha hb).mp hne
    apply not_clash_of_simulates rfl hR (hab (a, b) mem_cons_self) hfree hclash

theorem openAt_of_equals (hs : s.Regular) (ha : a.Within s) (hb : b.Within s) (h : s.equals a b = .error x) :
  s.OpenAt a b x
  := (found_of_equals hs.toWellFormed (fun _ id _ => hs.distinct id) ha hb).2 x h

theorem WellFormed.unbound_of_lookAt? (hs : s.WellFormed) (ha : a.Within s) (h : s.lookAt? a path = some (.var x)) :
  s.slots[x]? = some .unbound
  := by
  obtain ⟨v, hv, hres⟩ := Option.map_eq_some_iff.mp h
  exact hs.unbound_of_resolve (hs.within_of_reaches ha (reaches_of_at? hv)) hres

theorem OpenAt.unbound (hs : s.WellFormed) (ha : a.Within s) (hb : b.Within s) (h : s.OpenAt a b x) :
  s.slots[x]? = some .unbound
  := by
  obtain ⟨_, v, w, hv, hw, -, rfl | rfl⟩ := h
  · apply hs.unbound_of_lookAt? ha hv
  · apply hs.unbound_of_lookAt? hb hw

theorem Clash.symm (h : s.Clash a b) :
  s.Clash b a
  := by
  obtain ⟨path, d, e, hd, he, hdiffer⟩ := h
  refine ⟨path, e, d, he, hd, ?_⟩
  cases d with
  | scalar =>
    cases e with
    | scalar =>
      simp only [Differ, Bool.eq_false_iff] at hdiffer ⊢
      intro hsame
      apply hdiffer (Scalar.same_symm hsame)
    | record => trivial
  | record =>
    cases e with
    | scalar => trivial
    | record =>
      apply hdiffer.imp
      · apply Ne.symm
      · apply Ne.symm

theorem bisimilar_self (h : s.NaNFree a) :
  s.Bisimilar a a
  := by
  refine ⟨fun v w => v = w ∧ s.NaNFree v, ?_, rfl, h⟩
  rintro v _ ⟨rfl, hv⟩
  apply equality_agrees_self
  intro p hp
  apply hv p
  rw [← hp]
  exact Reaches.self.resolve

/-- Equality is equality along paths.  Two values are unequal precisely if a path of features leads
from both to data that differ.  If none does, they are equal precisely if no path leads from both to
different variables, or to a variable and a datum; and if one does, the comparison waits for an
unbound variable that such a path leads to.  So equality is reflexive, symmetric and transitive, and
a comparison and its converse are decided alike. -/
theorem equals_along_paths (hs : s.Regular) (ha : a.Within s) (hb : b.Within s)
    (hfree : s.NaNFree a) (hfree' : s.NaNFree b) :
  (s.equals a b = .ok false ↔ s.Clash a b) ∧
  (¬ s.Clash a b → (s.equals a b = .ok true ↔ ∀ x, ¬ s.OpenAt a b x)) ∧
  (¬ s.Clash a b → (∃ x, s.OpenAt a b x) →
    ∃ x, s.equals a b = .error x ∧ s.OpenAt a b x ∧ s.slots[x]? = some .unbound) ∧
  s.equals a a = .ok true ∧
  (∀ answer, s.equals a b = .ok answer ↔ s.equals b a = .ok answer) ∧
  ((∃ x, s.equals a b = .error x) ↔ ∃ x, s.equals b a = .error x) ∧
  ∀ c : Value, c.Within s → s.equals a b = .ok true → s.equals b c = .ok true →
    s.equals a c = .ok true
  := by
  have hfalse := equals_eq_ok_false_iff hs ha hb hfree
  have htrue := equals_eq_ok_true_iff hs.toWellFormed ha hb
  have hanswer : ∀ answer, s.equals a b = .ok answer ↔ s.equals b a = .ok answer := by
    intro answer
    cases answer with
    | true =>
      rw [htrue, equals_eq_ok_true_iff hs.toWellFormed hb ha]
      exact ⟨Bisimilar.symm, Bisimilar.symm⟩
    | false =>
      rw [hfalse, equals_eq_ok_false_iff hs hb ha hfree']
      exact ⟨Clash.symm, Clash.symm⟩
  have hok : (∃ answer, s.equals a b = .ok answer) ↔ ∃ answer, s.equals b a = .ok answer :=
    exists_congr hanswer
  have herror (r : Except VarId Bool) : (∃ x, r = .error x) ↔ ¬ ∃ answer, r = .ok answer := by
    cases r with
    | error => simp
    | ok => simp
  refine ⟨hfalse, ?_, ?_, ?_, hanswer, ?_, ?_⟩
  · intro hclash
    constructor
    · intro h
      apply (htrue.mp h).not_openAt
    · intro hopen
      cases h : s.equals a b with
      | error x => cases hopen x (openAt_of_equals hs ha hb h)
      | ok answer =>
        cases answer with
        | true => rfl
        | false => cases hclash (hfalse.mp h)
  · rintro hclash ⟨y, hy⟩
    cases h : s.equals a b with
    | error x =>
      have hx := openAt_of_equals hs ha hb h
      exact ⟨x, rfl, hx, hx.unbound hs.toWellFormed ha hb⟩
    | ok answer =>
      exfalso
      cases answer with
      | true => apply (htrue.mp h).not_openAt y hy
      | false => apply hclash (hfalse.mp h)
  · apply (equals_eq_ok_true_iff hs.toWellFormed ha ha).mpr (bisimilar_self hfree)
  · rw [herror, herror, hok]
  · intro c hc hab hbc
    rw [equals_eq_ok_true_iff hs.toWellFormed hb hc] at hbc
    apply (equals_eq_ok_true_iff hs.toWellFormed ha hc).mpr ((htrue.mp hab).trans hbc)

theorem rings_regular :
  (rings .unbound).Regular
  := by
  refine ⟨rings_wellFormed, ?_⟩
  intro id
  match id with
  | 0 => decide
  | 1 => decide
  | id + 2 =>
    rw [record, Array.getD_eq_getD_getElem?, Array.getElem?_eq_none (by simp [rings])]
    simp

/-- The two rings differ in nothing but a variable that the first one has: the comparison goes
round once and waits for it. -/
theorem equals_along_paths_rings :
  (rings .unbound).equals (.var 0) (.var 1) = .error 2 ∧
  ¬ (rings .unbound).Clash (.var 0) (.var 1) ∧
  (rings .unbound).OpenAt (.var 0) (.var 1) 2 ∧
  ∃ x, (rings .unbound).equals (.var 1) (.var 0) = .error x
  := by
  obtain ⟨hfalse, -, hopen, -, -, hsymm, -⟩ := equals_along_paths rings_regular (by decide) (by decide)
    (rings_nanFree 0) (rings_nanFree 1)
  have hwaits : (rings .unbound).equals (.var 0) (.var 1) = .error 2 := by
    cbv
  have hclash : ¬ (rings .unbound).Clash (.var 0) (.var 1) := by
    rw [← hfalse, hwaits]
    simp
  -- the variable faces the literal after any number of rounds
  have hround : (rings .unbound).OpenAt (.var 0) (.var 1) 2 :=
    ⟨[.str "next", .str "next", .str "value"], .var 2, .lit (.bool true), by cbv, by cbv,
      by simp [Value.lit, Value.scalar], Or.inl rfl⟩
  obtain ⟨x, hx, hat, -⟩ := hopen hclash ⟨2, hround⟩
  rw [hwaits] at hx
  cases hx
  exact ⟨hwaits, hclash, hat, hsymm.mp ⟨2, hwaits⟩⟩

end Store

end ActorLang
