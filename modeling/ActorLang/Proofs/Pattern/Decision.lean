import ActorLang.Proofs.Machine.Scoping
import ActorLang.Proofs.Machine.Validity
import ActorLang.Proofs.Pattern.Equivalence

/-!
# Matches are decided

A machine finds out whether a ground value matches a pattern without waiting.  Of the names that the
pattern reads it needs to know only that they are there and, where they are labels or features, that
they are bound to such.
-/

namespace ActorLang

open Kernel (Ident FeaturePattern LeafPattern RecordPattern)
open List

variable {env env' : Env} {name : Ident} {v : Value} {f : FeaturePattern} {names : List Ident}
  {captures : List (Ident × VarId)} {σ : Session} {s t : Store}

namespace Store

variable {v w : Value}

theorem Ground.of_resolve (h : s.Ground v) (hw : s.resolve w = s.resolve v) :
  s.Ground w
  := by
  have hreaches {u : Value} (hu : s.Reaches w u) : u = w ∨ s.Reaches v u := by
    have hv : s.Reaches v (s.resolve w) := by
      rw [hw]
      exact Reaches.self.resolve
    induction hu with
    | self => exact .inl rfl
    | resolve _ ih =>
      rcases ih with rfl | ih
      · exact .inr hv
      · exact .inr ih.resolve
    | field _ hmem ih =>
      rcases ih with rfl | ih
      · exact .inr (Reaches.field hv hmem)
      · exact .inr (ih.field hmem)
  intro u hu
  rcases hreaches hu with rfl | hu
  · rw [hw]
    exact h v .self
  · exact h u hu

theorem Ground.carried (h : s.Ground v) (hs : s.WellFormed) (hv : v.Within s)
    (hresolve : ∀ u d, u.Within s → s.resolve u = .datum d → t.resolve u = .datum d)
    (hrecord : ∀ id < s.records.size, t.record id = s.record id) :
  t.Ground v
  := by
  have hresolve {u : Value} (hu : s.Reaches v u) : ∃ d, s.resolve u = .datum d ∧ t.resolve u = .datum d := by
    obtain ⟨d, hd⟩ := h u hu
    exact ⟨d, hd, hresolve u d (hs.within_of_reaches hv hu) hd⟩
  have hreaches {u : Value} (hu : t.Reaches v u) : s.Reaches v u := by
    induction hu with
    | self => exact .self
    | resolve _ ih =>
      obtain ⟨d, hs, ht⟩ := hresolve ih
      rw [ht, ← hs]
      exact ih.resolve
    | @field id u _ hmem ih =>
      rw [hrecord id (hs.within_of_reaches hv ih)] at hmem
      exact ih.field hmem
  intro u hu
  obtain ⟨d, -, hd⟩ := hresolve (hreaches hu)
  exact ⟨d, hd⟩

theorem Ground.extendedBy (h : s.Ground v) (hs : s.WellFormed) (hv : v.Within s) (hle : s.ExtendedBy t) :
  t.Ground v
  := h.carried hs hv (fun _ _ => hle.resolve_eq_datum hs) hle.record

theorem Ground.grownTo (h : s.Ground v) (hs : s.WellFormed) (hv : v.Within s) (ht : s.GrownTo t) :
  t.Ground v
  := h.carried hs hv (fun u _ hu hd => (ht.resolve u hu).trans hd) fun id _ => ht.record_eq id

theorem featureOf?_extendedBy {f : Feature} (hs : s.WellFormed)
    (henv : env.Within s) (hle : s.ExtendedBy t) (h : s.featureOf? env name = some f) :
  t.featureOf? env name = some f
  := by
  obtain ⟨x, hx, h⟩ := Option.bind_eq_some_iff.mp h
  cases hd : s.resolve (.var x) with
  | var =>
    rw [hd] at h
    cases h
  | datum =>
    rw [hd] at h
    rw [featureOf?, hx]
    have hd' := hle.resolve_eq_datum hs (v := .var x) (henv.lookup hx) hd
    simpa only [Option.bind_eq_bind, Option.bind_some, hd'] using h

end Store

/-! ### The names that a pattern reads -/

/-- The two environments have the same variables for the names that are read. -/
def SameRead (env env' : Env) (uses : List NameUse) : Prop := ∀ x ∈ namesRead uses, env.lookup x = env'.lookup x

section Congruence

theorem SameRead.append {uses more : List NameUse} :
  SameRead env env' (uses ++ more) ↔ SameRead env env' uses ∧ SameRead env env' more
  := by
  rw [SameRead, namesRead, filterMap_append, forall_mem_append]
  rfl

theorem Pattern.feature?_congr {p : Pattern} (h : SameRead env env' p.exactUses) :
  p.feature? s env = p.feature? s env'
  := by
  obtain ⟨_, form⟩ := p
  cases form with
  | escaped name =>
    have hname : env.lookup name = env'.lookup name := h name (by simp [namesRead, exactUses, form, NameUse.read?])
    simp only [feature?, form, Store.featureOf?, hname]
  | _ => rfl

theorem Pattern.label?_congr {label : Option Pattern} (h : SameRead env env' (label.toList.flatMap Pattern.exactUses)) :
  Pattern.label? s env label = Pattern.label? s env' label
  := by
  cases label with
  | none => rfl
  | some =>
    rw [Option.toList_some, flatMap_cons, flatMap_nil, append_nil] at h
    rw [label?, label?, feature?_congr h]

theorem features_congr {fields : List (Pattern × Pattern)} (h : SameRead env env' (fields.flatMap (·.1.exactUses))) :
  fields.map (·.1.feature? s env) = fields.map (·.1.feature? s env')
  := by
  induction fields with
  | nil => rfl
  | cons _ _ ih =>
    obtain ⟨hfield, hrest⟩ := SameRead.append.mp h
    rw [map_cons, map_cons, Pattern.feature?_congr hfield, ih hrest]

theorem matchAll?_congr {patterns : List Pattern} (h : SameRead env env' (valueUses patterns))
    (ih : ∀ p ∈ patterns, SameRead env env' p.uses → ∀ v, p.match? s env v = p.match? s env' v) (values : List Value) :
  matchAll? s env patterns values = matchAll? s env' patterns values
  := by
  induction patterns generalizing values with
  | nil => cases values <;> rfl
  | cons p _ ihrest =>
    obtain ⟨hp, hrest⟩ := SameRead.append.mp h
    obtain ⟨ihp, ih⟩ := forall_mem_cons.mp ih
    cases values with
    | nil => rfl
    | cons => rw [matchAll?, matchAll?, ihp hp, ihrest hrest ih]

/-- What a pattern matches depends on the names that it reads. -/
theorem Pattern.match?_congr (p : Pattern) :
  SameRead env env' p.uses → ∀ v, p.match? s env v = p.match? s env' v
  := by
  induction p using Lowering.pattern_induction with
  | leaf _ form hform =>
    intro h v
    cases form with
    | escaped name =>
      have hname : env.lookup name = env'.lookup name :=
        h name (by simp [namesRead, uses, PatternForm.uses, NameUse.read?])
      simp only [match?, PatternForm.match?, Store.entailedBy?, hname]
    | record label fields isPartial => exact absurd (.record label fields isPartial) (hform _)
    | tuple label patterns isPartial => exact absurd (.tuple label patterns isPartial) (hform _)
    | _ => rfl
  | composite _ _ _ hform ih =>
    intro h v
    cases hform with
    | record label =>
      obtain ⟨hexact, hfields⟩ := SameRead.append.mp h
      obtain ⟨hlabel, hfeatures⟩ := SameRead.append.mp hexact
      rw [Lowering.fieldUses_eq_valueUses] at hfields
      simp only [match?, PatternForm.match?, label?_congr hlabel, features_congr hfeatures,
        Lowering.matchFields?_eq_matchAll?, matchAll?_congr hfields ih]
    | tuple label =>
      obtain ⟨hlabel, hvalues⟩ := SameRead.append.mp h
      simp only [match?, PatternForm.match?, label?_congr hlabel, matchAll?_congr hvalues ih]

end Congruence

namespace Exec

open Lowering

/-- Variables for ground values, under these names. -/
structure Captured (s : Store) (names : List Ident) (captures : List (Ident × VarId)) : Prop where
  names : ∀ x, x ∈ captures.map (·.1) ↔ x ∈ names
  ground : ∀ b ∈ captures, (Value.var b.2).Within s ∧ s.Ground (.var b.2)

theorem feature?_extendedBy (hs : s.WellFormed) (henv : env.Within s) (hle : s.ExtendedBy t)
    (h : (f.feature? s env).isSome) :
  (f.feature? t env).isSome
  := by
  cases f with
  | lit => exact h
  | escaped =>
    obtain ⟨g, hg⟩ := Option.isSome_iff_exists.mp h
    exact Option.isSome_iff_exists.mpr ⟨g, Store.featureOf?_extendedBy hs henv hle hg⟩

/-! ### Ground values -/

section Ground

variable {known : Captures} {leaf : LeafPattern} {r : Record} {fields : List (FeaturePattern × LeafPattern)}

theorem leafOutcome?_of_ground (hv : s.Ground v) (hknown : Caught s.Ground names known)
    (hpinned : env.Binds leaf.pinned?.toList) :
  ∃ b all, leaf.outcome? s env known v = some (.ok b, all)
  := by
  cases leaf with
  | lit l =>
    obtain ⟨b, hb⟩ := Store.equals_of_ground hv (ground_lit s l)
    exact ⟨b, known, by rw [LeafPattern.outcome?, hb]⟩
  | ident =>
    rw [LeafPattern.outcome?]
    split
    next first hfirst =>
      obtain ⟨b, hb⟩ := Store.equals_of_ground (hknown.values _ (Env.mem_of_lookup hfirst)) hv
      exact ⟨b, known, by rw [hb]⟩
    next => exact ⟨true, _, rfl⟩
  | escaped name =>
    obtain ⟨x, hx⟩ := Option.isSome_iff_exists.mp (hpinned name (mem_singleton_self _))
    obtain ⟨b, hb⟩ := Store.entails_of_ground (v := .var x) hv
    exact ⟨b, known, by simp [LeafPattern.outcome?, hx, hb]⟩

theorem fieldsOutcome?_of_ground (hvalues : ∀ v ∈ r.values, s.Ground v) (hknown : Caught s.Ground names known)
    (hfeatures : ∀ f ∈ fields.map (·.1), (f.feature? s env).isSome)
    (hpinned : env.Binds (fields.flatMap (·.2.pinned?.toList))) :
  ∃ result, Kernel.fieldsOutcome? s env r known none fields = some result
  := by
  induction fields generalizing names known with
  | nil => exact ⟨_, rfl⟩
  | cons field _ ih =>
    rw [map_cons, forall_mem_cons] at hfeatures
    obtain ⟨hleaf, hrest⟩ := Env.Binds.append.mp hpinned
    obtain ⟨_, hfeature⟩ := Option.isSome_iff_exists.mp hfeatures.1
    simp only [Kernel.fieldsOutcome?, hfeature, Option.bind_eq_bind, Option.bind_some]
    split
    next => exact ⟨_, rfl⟩
    next field hget =>
      have hground := hvalues _ (Record.mem_values_of_get? hget)
      obtain ⟨b, _, hall⟩ := leafOutcome?_of_ground hground hknown hleaf
      rw [hall]
      cases b with
      | false => exact ⟨_, rfl⟩
      | true => exact ih (hknown.of_leaf hground hall) hfeatures.2 hrest

/-- What a machine has to know of the names that a pattern reads. -/
structure Prepared (s : Store) (env : Env) (p : Kernel.Pattern) : Prop where
  pinned : env.Binds p.pinned
  features : ∀ q, p = .record q → ∀ f ∈ q.exacts, (f.feature? s env).isSome

theorem outcome?_of_ground {p : Kernel.Pattern} (hv : s.Ground v) (hp : Prepared s env p) :
  ∃ result, p.outcome? s env v = some result
  := by
  obtain ⟨d, hd⟩ := hv v .self
  cases p with
  | ident => exact ⟨_, rfl⟩
  | lit l =>
    have hdatum : s.Ground (.datum d) := hv.of_resolve hd.symm
    obtain ⟨b, hb⟩ := Store.equals_of_ground hdatum (ground_lit s l)
    exact ⟨if b then some [] else none, by simp [Kernel.Pattern.outcome?, hd, Value.datum?, hb, Except.toOption]⟩
  | escaped name =>
    obtain ⟨x, hx⟩ := Option.isSome_iff_exists.mp (hp.pinned name (mem_singleton_self _))
    obtain ⟨b, hb⟩ := Store.entails_of_ground (v := .var x) hv
    exact ⟨if b then some [] else none, by simp [Kernel.Pattern.outcome?, hx, hb, Except.toOption]⟩
  | record p =>
    simp only [Kernel.Pattern.outcome?, RecordPattern.outcome?, hd, Value.datum?, Option.bind_eq_bind]
    cases d with
    | scalar => exact ⟨_, rfl⟩
    | record =>
      have hfeatures := hp.features p rfl
      rw [RecordPattern.exacts, forall_mem_append] at hfeatures
      obtain ⟨_, hlabel⟩ := label?_of_features hfeatures.1
      have hpinned : env.Binds (p.fields.flatMap (·.2.pinned?.toList)) := by
        intro x hx
        obtain ⟨field, hfield, hx⟩ := mem_flatMap.mp hx
        exact hp.pinned x (mem_append_right _ (mem_flatMap.mpr ⟨field, hfield, mem_append_right _ hx⟩))
      simp only [hlabel, Option.bind_some]
      split
      · exact ⟨_, rfl⟩
      · split
        · exact ⟨_, rfl⟩
        · exact fieldsOutcome?_of_ground (fun w hw => hv.field hd hw) (.nil _) hfeatures.2 hpinned

/-- Whether a ground value matches is found out. -/
theorem matchPattern_of_ground {p : Kernel.Pattern} (hs : σ.store.WellFormed)
    (henv : env.Within σ.store) (hv : v.Within σ.store) (hground : σ.store.Ground v)
    (hp : Prepared σ.store env p) :
  ∃ result t, (matchPattern env v p).Returns σ result (σ.withStore t) ∧
    ∀ captures, result = some captures → Captured t p.captures captures
  := by
  have hanswers := answers_matchPattern hs hv fun x (_ : x ∈ p.pinned) => ⟨rfl, fun _ => henv.lookup⟩
  obtain ⟨_, houtcome⟩ := outcome?_of_ground hground hp
  rw [houtcome] at hanswers
  obtain ⟨result, t, hreturns, ht, hholds⟩ := hanswers
  refine ⟨result, t, hreturns, ?_⟩
  rintro _ rfl
  cases hholds with
  | @some _ _ hall =>
    have hcaught := caught_of_ground hs ⟨hv, hground⟩ houtcome
    refine ⟨?_, forall₂_holds_forall hall hcaught.values ?_⟩
    · rw [forall₂_holds_keys hall]
      exact hcaught.names
    · rintro x y hxy ⟨hwithin, hy⟩
      refine ⟨hxy.within, (hy.grownTo hs hwithin ht).of_resolve ?_⟩
      rw [hxy.resolve, ht.resolve _ hwithin]

end Ground

end Exec

end ActorLang
