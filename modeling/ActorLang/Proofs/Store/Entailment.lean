import ActorLang.Proofs.Store.Ground
import ActorLang.Proofs.Store.Paths

/-!
# Entailment

One value entails another if every path of features that leads from the one to a datum leads from
the other to one with the same label, or to the same atom.  On ground values this is a partial order
up to equality.
-/

namespace ActorLang

open Comparison List

namespace Comparison

/-- The comparison waits where a datum meets a variable, and compares each field of the left record. -/
structure Thorough (c : Comparison) : Prop where
  waits : ∀ d x, c.waits (.datum d) (.var x) ≠ none
  label : ∀ r r' pairs, c.fields? r r' = some pairs → r.label = r'.label
  fields : ∀ r r' pairs, c.fields? r r' = some pairs → ∀ f leaf, r.get? f = some leaf →
    ∃ leaf', r'.get? f = some leaf' ∧ (leaf.toValue, leaf'.toValue) ∈ pairs

theorem entailment_thorough :
  entailment.Thorough where
  waits _ _ h := by cases h
  label _ _ _ h := (entailedFields?_eq_some_iff.mp h).1
  fields r r' pairs h f leaf hleaf := by
    obtain ⟨-, hsome, rfl⟩ := entailedFields?_eq_some_iff.mp h
    have hmem := Record.mem_of_get? hleaf
    obtain ⟨leaf', hleaf'⟩ := Option.isSome_iff_exists.mp (hsome _ hmem)
    exact ⟨leaf', hleaf', mem_map.mpr ⟨_, hmem, by rw [hleaf']; rfl⟩⟩

theorem equality_thorough :
  equality.Thorough where
  waits _ _ h := by cases h
  label _ _ _ h := (Record.fieldPairs?_eq_some_iff.mp h).1
  fields r r' pairs h f leaf hleaf := by
    obtain ⟨-, hfeatures, rfl⟩ := Record.fieldPairs?_eq_some_iff.mp h
    have hmem : f ∈ r'.fields.map (·.1) := hfeatures ▸ mem_map_of_mem (Record.mem_of_get? hleaf)
    obtain ⟨leaf', hleaf'⟩ := Option.isSome_iff_exists.mp (Record.isSome_get?_iff.mpr hmem)
    exact ⟨leaf', hleaf', Record.mem_zip_of_get? hfeatures hleaf hleaf'⟩

end Comparison

namespace Store

variable {s : Store} {a b c v w : Value} {d e e' : Datum} {R : Value → Value → Prop}

/-- Both data are the same atom, or records with the same label. -/
def Alike (s : Store) : Datum → Datum → Prop
  | .scalar p, .scalar q => p.same q = true
  | .record i, .record j => (s.record i).label = (s.record j).label
  | _, _ => False

/-- Every path that leads from the one value to a datum leads from the other one to its like. -/
def Covers (s : Store) (a b : Value) : Prop :=
  ∀ path d, s.lookAt? a path = some (.datum d) → ∃ e, s.lookAt? b path = some (.datum e) ∧ s.Alike d e

/-- The store has the value, which leads to no unbound variable and to no float that is not a number. -/
structure Concrete (s : Store) (a : Value) : Prop where
  within : a.Within s
  ground : s.Ground a
  nanFree : s.NaNFree a

theorem Alike.trans (h : s.Alike d e) (h' : s.Alike e e') :
  s.Alike d e'
  := by
  cases d <;> cases e <;> cases e' <;> try contradiction
  · exact Scalar.same_trans h h'
  · exact Eq.trans h h'

theorem Concrete.field (hs : s.WellFormed) (h : s.Concrete v) {id : RecordId} {f : Feature} {leaf : Leaf}
    (hid : s.resolve v = .datum (.record id)) (hleaf : (s.record id).get? f = some leaf) :
  s.Concrete leaf.toValue
  := by
  have hmem := Record.mem_values_of_get? hleaf
  have hreaches : s.Reaches v leaf.toValue := by
    apply Reaches.field _ hmem
    rw [← hid]
    exact Reaches.self.resolve
  exact ⟨hs.fields id _ hmem, h.ground.of_reaches hreaches, h.nanFree.of_reaches hreaches⟩

/-! ### Paths from related values -/

/-- The heads of related values are alike, and their fields are related. -/
def Descends (s : Store) (R : Value → Value → Prop) : Prop :=
  ∀ v w, R v w → ∀ d, s.resolve v = .datum d → ∃ e, s.resolve w = .datum e ∧ s.Alike d e ∧
    ∀ i j, d = .record i → e = .record j → ∀ f leaf, (s.record i).get? f = some leaf →
      ∃ leaf', (s.record j).get? f = some leaf' ∧ R leaf.toValue leaf'.toValue

theorem Descends.covers (hR : s.Descends R) (h : R a b) :
  s.Covers a b
  := by
  intro path d hd
  induction path generalizing a b with
  | nil =>
    obtain ⟨e, he, halike, -⟩ := hR a b h d (Option.some.inj hd)
    exact ⟨e, congrArg some he, halike⟩
  | cons f _ ih =>
    obtain ⟨i, leaf, hi, hleaf, hd⟩ := lookAt?_cons_eq_some_iff.mp hd
    obtain ⟨e, he, halike, hfields⟩ := hR a b h _ hi
    cases e with
    | scalar => exact halike.elim
    | record j =>
      obtain ⟨leaf', hleaf', hrel⟩ := hfields i j rfl rfl f leaf hleaf
      obtain ⟨e, he', halike⟩ := ih hrel hd
      exact ⟨e, lookAt?_cons_eq_some_iff.mpr ⟨j, leaf', he, hleaf', he'⟩, halike⟩

theorem descends_covers (hs : s.WellFormed) :
  s.Descends fun v w => s.Covers v w ∧ s.Concrete v
  := by
  rintro v w ⟨hcovers, hv⟩ d hd
  obtain ⟨e, he, halike⟩ := hcovers [] d (congrArg some hd)
  refine ⟨e, Option.some.inj he, halike, ?_⟩
  rintro i j rfl rfl f leaf hleaf
  have hfield := hv.field hs hd hleaf
  -- The field is a datum, so that the other record has the feature too.
  obtain ⟨d', hd'⟩ := hfield.ground _ .self
  obtain ⟨_, he', -⟩ := hcovers [f] d' (lookAt?_cons_eq_some_iff.mpr ⟨i, leaf, hd, hleaf, congrArg some hd'⟩)
  obtain ⟨_, leaf', hj', hleaf', -⟩ := lookAt?_cons_eq_some_iff.mp he'
  cases (Option.some.inj he).symm.trans hj'
  refine ⟨leaf', hleaf', fun path d'' hd'' => ?_, hfield⟩
  obtain ⟨e'', he'', halike⟩ := hcovers (f :: path) d'' (lookAt?_cons_eq_some_iff.mpr ⟨i, leaf, hd, hleaf, hd''⟩)
  obtain ⟨_, _, hj'', hleaf'', he''⟩ := lookAt?_cons_eq_some_iff.mp he''
  cases hj'.symm.trans hj''
  cases hleaf'.symm.trans hleaf''
  exact ⟨e'', he'', halike⟩

theorem Concrete.covers_self (hs : s.WellFormed) (h : s.Concrete a) :
  s.Covers a a
  := by
  refine Descends.covers (R := fun v w => v = w ∧ s.Concrete v) ?_ ⟨rfl, h⟩
  rintro v _ ⟨rfl, hv⟩ d hd
  refine ⟨d, hd, ?_, ?_⟩
  · cases d with
    | scalar p => exact Scalar.same_self (hv.nanFree p (hd ▸ Reaches.self.resolve))
    | record => rfl
  · rintro i _ rfl ⟨⟩ f leaf hleaf
    exact ⟨leaf, hleaf, rfl, hv.field hs hd hleaf⟩

theorem Covers.trans (h : s.Covers a b) (h' : s.Covers b c) :
  s.Covers a c
  := by
  intro path d hd
  obtain ⟨e, he, halike⟩ := h path d hd
  obtain ⟨e', he', halike'⟩ := h' path e he
  exact ⟨e', he', halike.trans halike'⟩

/-! ### Entailment along paths -/

/-- Values that a thorough comparison relates are related along paths. -/
theorem covers_of_simulates (hs : s.WellFormed) {cmp : Comparison} (hcmp : cmp.Thorough)
    (hR : cmp.Simulates s [] R) (h : R a b) (ha : s.Concrete a) :
  s.Covers a b
  := by
  refine Descends.covers (R := fun v w => (R v w ∨ s.Covers v w) ∧ s.Concrete v) ?_ ⟨.inl h, ha⟩
  rintro v w ⟨hvw | hcovers, hv⟩ d hd
  case inr =>
    obtain ⟨e, he, halike, hfields⟩ := descends_covers hs v w ⟨hcovers, hv⟩ d hd
    refine ⟨e, he, halike, fun i j hi hj f leaf hleaf => ?_⟩
    obtain ⟨leaf', hleaf', hrest, hconcrete⟩ := hfields i j hi hj f leaf hleaf
    exact ⟨leaf', hleaf', .inr hrest, hconcrete⟩
  have hagrees := hR v w hvw
  rw [hd] at hagrees
  cases hw : s.resolve w with
  | var y => cases hcmp.waits d y (hw ▸ hagrees.waits_eq_none (by simp [hw]))
  | datum e =>
    rw [hw] at hagrees
    refine ⟨e, rfl, ?_⟩
    obtain ⟨p, q, rfl, rfl⟩ | ⟨i, j, rfl, rfl⟩ := hagrees.data_cases
    · exact ⟨agrees_scalar_iff.mp hagrees, nofun⟩
    obtain rfl | ⟨_, hpairs, hrel⟩ := agrees_record_iff.mp hagrees
    · refine ⟨rfl, ?_⟩
      rintro _ _ ⟨⟩ ⟨⟩ f leaf hleaf
      have hfield := hv.field hs hd hleaf
      exact ⟨leaf, hleaf, .inr (hfield.covers_self hs), hfield⟩
    · refine ⟨hcmp.label _ _ _ hpairs, ?_⟩
      rintro _ _ ⟨⟩ ⟨⟩ f leaf hleaf
      obtain ⟨leaf', hleaf', hmem⟩ := hcmp.fields _ _ _ hpairs f leaf hleaf
      exact ⟨leaf', hleaf', .inl (hrel _ hmem), hv.field hs hd hleaf⟩

theorem entails_eq_ok_true_iff (hs : s.Regular) (ha : s.Concrete a) (hb : s.Concrete b) :
  s.entails a b = .ok true ↔ s.Covers a b
  := by
  constructor
  · intro h
    obtain ⟨-, R, hR, hall⟩ := related_of_compareAll h
    exact covers_of_simulates hs.toWellFormed entailment_thorough hR (hall (a, b) mem_cons_self) ha
  · intro h
    refine compareAll_of_simulates hs.toWellFormed entailment_fieldWise
      (R := fun v w => s.Covers v w ∧ s.Concrete v) ?_ rfl (by simp [h, ha, ha.within, hb.within])
    intro v w hvw
    obtain ⟨d, hd⟩ := hvw.2.ground v .self
    obtain ⟨e, he, halike, hfields⟩ := descends_covers hs.toWellFormed v w hvw d hd
    rw [hd, he]
    cases d <;> cases e <;> try contradiction
    case scalar.scalar p q => exact .scalar halike
    case record.record i j =>
      have hget (field : Feature × Leaf) (hmem : field ∈ (s.record i).fields) :=
        hfields i j rfl rfl field.1 field.2 (Record.get?_eq_of_mem (hs.distinct i) hmem)
      refine .fields (entailedFields?_eq_some_iff.mpr ⟨halike, fun field hmem => ?_, rfl⟩) ?_
      · obtain ⟨_, hleaf', -⟩ := hget field hmem
        exact Option.isSome_of_eq_some hleaf'
      · refine forall_mem_map.mpr fun field hmem => ?_
        obtain ⟨_, hleaf', hrel⟩ := hget field hmem
        rw [hleaf']
        exact hrel

/-- Values are equal precisely if they are related along paths in both directions. -/
theorem equals_eq_ok_true_iff_covers (hs : s.Regular) (hordered : ∀ id, (s.record id).Ordered)
    (ha : s.Concrete a) (hb : s.Concrete b) :
  s.equals a b = .ok true ↔ s.Covers a b ∧ s.Covers b a
  := by
  rw [equals_eq_ok_true_iff hs.toWellFormed ha.within hb.within]
  have hdescends := s.descends_covers hs.toWellFormed
  constructor
  · intro h
    obtain ⟨_, hR', hba⟩ := h.symm
    obtain ⟨R, hR, hab⟩ := h
    exact ⟨covers_of_simulates hs.toWellFormed equality_thorough hR hab ha,
      covers_of_simulates hs.toWellFormed equality_thorough hR' hba hb⟩
  · rintro ⟨hab, hba⟩
    refine ⟨fun v w => (s.Covers v w ∧ s.Concrete v) ∧ s.Covers w v ∧ s.Concrete w, ?_, ⟨hab, ha⟩, hba, hb⟩
    rintro v w ⟨hvw, hwv⟩
    obtain ⟨d, hd⟩ := hvw.2.ground v .self
    obtain ⟨e, he, halike, hfields⟩ := hdescends v w hvw d hd
    obtain ⟨_, hd', -, hfields'⟩ := hdescends w v hwv e he
    cases hd.symm.trans hd'
    rw [hd, he]
    cases d <;> cases e <;> try contradiction
    case scalar.scalar p q => exact .scalar halike
    case record.record i j =>
      have hfeatures : (s.record i).fields.map (·.1) = (s.record j).fields.map (·.1) := by
        have hsub := Record.features_subset fun f leaf hleaf => (hfields i j rfl rfl f leaf hleaf).imp fun _ => And.left
        have hsub' := Record.features_subset fun f leaf hleaf => (hfields' j i rfl rfl f leaf hleaf).imp fun _ => And.left
        exact Record.eq_of_increasing id (hordered i) (hordered j) fun f => ⟨@hsub f, @hsub' f⟩
      have hpairs := Record.fieldPairs?_eq_some_iff.mpr ⟨halike, hfeatures, rfl⟩
      refine .fields hpairs fun p hp => ?_
      obtain ⟨f, leaf, leaf', hleaf, hleaf', rfl⟩ := Record.get?_of_mem_fieldPairs? (hs.distinct i) hpairs hp
      obtain ⟨_, hget, hrel⟩ := hfields i j rfl rfl f leaf hleaf
      cases hget.symm.trans hleaf'
      obtain ⟨_, hget', hrel'⟩ := hfields' j i rfl rfl f leaf' hleaf'
      cases hget'.symm.trans hleaf
      exact ⟨hrel, hrel'⟩

/-- Entailment is a partial order, and is what paths say. -/
theorem entails_partialOrder (hs : s.WellFormed) (hordered : ∀ id, (s.record id).Ordered)
    (ha : s.Concrete a) (hb : s.Concrete b) (hc : s.Concrete c) :
  (∃ answer, s.entails a b = .ok answer) ∧
  s.entails a a = .ok true ∧
  (s.entails a b = .ok true → s.entails b c = .ok true → s.entails a c = .ok true) ∧
  (s.entails a b = .ok true ∧ s.entails b a = .ok true ↔ s.equals a b = .ok true) ∧
  (s.entails a b = .ok true ↔ ∀ path d, s.lookAt? a path = some (.datum d) →
    ∃ e, s.lookAt? b path = some (.datum e) ∧ s.Alike d e)
  := by
  have hregular : s.Regular := ⟨hs, fun id => (hordered id).distinct⟩
  rw [entails_eq_ok_true_iff hregular ha ha, entails_eq_ok_true_iff hregular ha hb,
    entails_eq_ok_true_iff hregular hb hc, entails_eq_ok_true_iff hregular ha hc,
    entails_eq_ok_true_iff hregular hb ha, equals_eq_ok_true_iff_covers hregular hordered ha hb]
  exact ⟨entails_of_ground hb.ground, ha.covers_self hs, Covers.trans, Iff.rfl, Iff.rfl⟩

/-- Two records that contain themselves.  The second one has a field more. -/
def loops : Store where
  slots := #[.bound (.record 0), .bound (.record 1)]
  records := #[⟨none, [(.str "next", .var 0)]⟩, ⟨none, [(.str "next", .var 1), (.str "value", .lit .null)]⟩]

theorem loops_wellFormed :
  loops.WellFormed
  := .of_no_link (by decide) (by decide)

theorem loops_concrete {v : VarId} (hv : v < 2) :
  loops.Concrete (.var v)
  := by
  have hwithin : (Value.var v).Within loops := hv
  refine ⟨hwithin, fun w hw => ?_, ?_⟩
  · cases h : loops.resolve w with
    | datum d => exact ⟨d, rfl⟩
    | var =>
      have hx := loops_wellFormed.unbound_of_resolve (loops_wellFormed.within_of_reaches hwithin hw) h
      simpa [loops] using Array.mem_of_getElem? hx
  · apply nanFree_of_no_nan
    · simp [loops]
    · simp [loops, Record.values, Leaf.toValue, Leaf.lit, Value.scalar, Scalar.IsNaN, -mem_map]
    · simp

/-- The comparison of the two goes round once. -/
theorem entails_partialOrder_loops :
  loops.entails (.var 0) (.var 1) = .ok true ∧ loops.equals (.var 0) (.var 1) ≠ .ok true ∧
  loops.entails (.var 0) (.var 0) = .ok true
  := by
  have hordered (id : RecordId) : (loops.record id).Ordered := by
    match id with
    | 0 => decide
    | 1 => decide
    | id + 2 =>
      exact .nil
  obtain ⟨-, hself, -, hequal, -⟩ := entails_partialOrder loops_wellFormed hordered
    (loops_concrete (v := 0) (by decide)) (loops_concrete (v := 1) (by decide)) (loops_concrete (v := 1) (by decide))
  have hreverse : loops.entails (.var 1) (.var 0) = .ok false := by
    cbv
  refine ⟨by cbv, fun h => ?_, hself⟩
  cases hreverse.symm.trans (hequal.mpr h).2

end Store

end ActorLang
