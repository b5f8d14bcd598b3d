import ActorLang.Machine.Match
import ActorLang.Proofs.Machine.Returns
import ActorLang.Proofs.Pattern.Chain
import ActorLang.Proofs.Store.Ground

/-!
# Matching on the machine

The machine matches a kernel pattern by adding variables for what it captures, so all of its
comparisons are those of the store it began with.  `Pattern.outcome?` says in terms of that store
what comes of the match: there is none if it has to wait or reads a name that is not there.
-/

namespace ActorLang

open Kernel (Ident FeaturePattern LeafPattern RecordPattern matchLeaves?)
open List

def Value.datum? : Value → Option Datum
  | .datum d => some d
  | .var _ => none

theorem Value.datum?_eq_some_iff {v : Value} {d : Datum} :
  v.datum? = some d ↔ v = .datum d
  := by
  cases v with
  | var | datum => simp [datum?]

/-! ### What comes of a match -/

namespace Kernel

section

variable (s : Store) (env : Env)

/-- The answer for a field, and the captures after it. -/
def LeafPattern.outcome? (known : Captures) (v : Value) :
    LeafPattern → Option (Except VarId Bool × Captures)
  | .ident name => match known.lookup name with
    | some first => some (s.equals first v, known)
    | none => some (.ok true, known ++ [(name, v)])
  | .lit l => some (s.equals v (.lit l), known)
  | .escaped name => do
    let pinned ← env.lookup name
    return (s.entails (.var pinned) v, known)

/-- What comes of matching the fields of a record. -/
def fieldsOutcome? (r : Record) (known : Captures) (waiting : Option VarId) :
    List (FeaturePattern × LeafPattern) → Option (Option Captures)
  | [] => match waiting with
    | some _ => none
    | none => some (some known)
  | (f, leaf) :: rest => do
    let f ← f.feature? s env
    match r.get? f with
    | none => return none
    | some field =>
      match ← leaf.outcome? s env known field.toValue with
      | (.ok true, known) => fieldsOutcome? r known waiting rest
      | (.ok false, _) => return none
      | (.error v, known) => fieldsOutcome? r known (waiting.or (some v)) rest

def RecordPattern.outcome? (p : RecordPattern) (v : Value) : Option (Option Captures) := do
  match ← (s.resolve v).datum? with
  | .scalar _ => return none
  | .record id =>
    let label ← FeaturePattern.label? s env p.label
    let r := s.record id
    if r.label ≠ label then return none
    if !p.isPartial && r.size ≠ p.fields.length then return none
    fieldsOutcome? s env r [] none p.fields

/-- What comes of matching a kernel pattern. -/
def Pattern.outcome? (v : Value) : Kernel.Pattern → Option (Option Captures)
  | .ident name => return some [(name, v)]
  | .lit l => do
    let d ← (s.resolve v).datum?
    let equal ← (s.equals (.datum d) (.lit l)).toOption
    return if equal then some [] else none
  | .escaped name => do
    let pinned ← env.lookup name
    let entailed ← (s.entails (.var pinned) v).toOption
    return if entailed then some [] else none
  | .record p => p.outcome? s env v

end

end Kernel

namespace Exec

open Lowering

variable {α β γ δ : Type} {s t u : Store} {env env₀ : Env} {σ σ' : Session} {v' v : Value}
  {new captures : List (Ident × VarId)} {known : Captures} {uses uses' : List NameUse} {name : Ident}

/-! ### Variables for captured values -/

/-- A variable of `t` for a value of `s`, under the same name. -/
structure Holds (s t : Store) (x : Ident × VarId) (y : Ident × Value) : Prop where
  name : x.1 = y.1
  within : (Value.var x.2).Within t
  resolve : t.resolve (.var x.2) = s.resolve y.2

theorem Holds.grow {x : Ident × VarId} {y : Ident × Value} (h : Holds s t x y) (hu : t.GrownTo u) :
  Holds s u x y where
  name := h.name
  within := hu.within h.within
  resolve := (hu.resolve _ h.within).trans h.resolve

theorem forall₂_holds_grow (h : Forall₂ (Holds s t) new known) (hu : t.GrownTo u) :
  Forall₂ (Holds s u) new known
  := by
  apply h.imp
  intro x y hxy
  apply hxy.grow hu

theorem forall₂_holds_keys (h : Forall₂ (Holds s t) new known) :
  new.map (·.1) = known.map (·.1)
  := by
  induction h with
  | nil => rfl
  | cons hxy _ ih => rw [map_cons, map_cons, hxy.name, ih]

theorem forall₂_holds_forall {P : Ident × Value → Prop} {Q : Ident × VarId → Prop}
    (h : Forall₂ (Holds s t) new known) (hknown : ∀ y ∈ known, P y)
    (hQ : ∀ x y, Holds s t x y → P y → Q x) :
  ∀ x ∈ new, Q x
  := by
  induction h with
  | nil => exact forall_mem_nil _
  | cons hxy _ ih =>
    rw [forall_mem_cons] at hknown ⊢
    exact ⟨hQ _ _ hxy hknown.1, ih hknown.2⟩

theorem forall₂_holds_lookup (h : Forall₂ (Holds s t) new known) (name : Ident) :
  Option.Rel (fun x v => Holds s t (name, x) (name, v)) (new.lookup name) (known.lookup name)
  := by
  induction h with
  | nil => exact .none
  | @cons b c _ _ hbc _ ih =>
    obtain ⟨key, x⟩ := b
    obtain ⟨key', v⟩ := c
    obtain rfl : key = key' := hbc.name
    rw [lookup_cons, lookup_cons]
    by_cases hname : name = key
    · subst hname
      simpa using Option.Rel.some hbc
    · have hbeq : (name == key) = false := by
        simpa using hname
      rw [hbeq]
      exact ih

theorem returns_newBound (hσ : s.GrownTo σ.store) (hv : v.Within s) :
  ∃ x u, (onStore (·.newBound v)).Returns σ x (σ.withStore u) ∧ σ.store.GrownTo u ∧
    ∀ name, Holds s u (name, x) (name, v)
  := by
  obtain ⟨hgrow, hvar, hresolve⟩ := hσ.wellFormed.newBound (hσ.within hv)
  refine ⟨_, _, returns_onStore _ σ, hgrow, ?_⟩
  intro _
  exact ⟨rfl, hvar, hresolve.trans (hσ.resolve _ hv)⟩

/-- The machine captures variables for the values that are captured, if any are. -/
abbrev HoldsAll (s t : Store) : Option (List (Ident × VarId)) → Option Captures → Prop :=
  Option.Rel (Forall₂ (Holds s t))

/-! ### Computations that only add variables -/

/-- What comes of a computation: a value for this one, in a store that has only grown, or none. -/
def Answers (σ : Session) (x : Exec α) (R : Store → α → β → Prop) : Option β → Prop
  | none => ∀ a σ', ¬ x.Returns σ a σ'
  | some b => ∃ a t, x.Returns σ a (σ.withStore t) ∧ σ.store.GrownTo t ∧ R t a b

section Answers

variable {x : Exec α} {f : α → Exec γ} {R : Store → α → β → Prop} {Q : Store → γ → δ → Prop}
  {answer : Option β} {a : α} {b : β}

theorem answers_pure (hσ : σ.store.WellFormed) (h : R σ.store a b) :
  Answers σ (pure a) R (some b)
  := ⟨a, _, returns_pure a σ, hσ.grownTo_self, h⟩

theorem answers_fault (f : Fault) :
  Answers σ (fault f) R none
  := fun _ _ h => by cases h

theorem Answers.after {answer : Option δ} (hx : x.Returns σ a (σ.withStore t)) (ht : σ.store.GrownTo t)
    (h : Answers (σ.withStore t) (f a) Q answer) :
  Answers σ (x >>= f) Q answer
  := by
  cases answer with
  | none => exact fun c σ' hc => h c σ' ((hx.run_bind f).symm.trans hc)
  | some =>
    obtain ⟨c, u, hc, hu, hQ⟩ := h
    exact ⟨c, u, hx.bind hc, ht.trans hu, hQ⟩

theorem Answers.bind {g : β → Option δ} (h : Answers σ x R answer)
    (hf : ∀ a b t, answer = some b → σ.store.GrownTo t → R t a b → Answers (σ.withStore t) (f a) Q (g b)) :
  Answers σ (x >>= f) Q (answer >>= g)
  := by
  cases answer with
  | none =>
    intro c _ hc
    obtain ⟨a, σ₁, ha, -⟩ := Returns.of_bind hc
    exact h a σ₁ ha
  | some b =>
    obtain ⟨a, t, ha, ht, hR⟩ := h
    exact .after ha ht (hf a b t rfl ht hR)

theorem Answers.of_returns (h : Answers σ x R answer) (hx : x.Returns σ a σ') :
  ∃ b t, answer = some b ∧ σ' = σ.withStore t ∧ σ.store.GrownTo t ∧ R t a b
  := by
  cases answer with
  | none => exact absurd hx (h a σ')
  | some b =>
    obtain ⟨_, t, ha, ht, hR⟩ := h
    cases ha.symm.trans hx
    exact ⟨b, t, rfl, rfl, ht, hR⟩

end Answers

/-- The names are bound in `env` as they are in `env₀`, where they have variables of the store. -/
abbrev Sees (s : Store) (env env₀ : Env) (names : List Ident) : Prop :=
  ∀ x ∈ names, env.lookup x = env₀.lookup x ∧ ∀ v, env₀.lookup x = some v → (Value.var v).Within s

theorem answers_lookup (hσ : σ.store.WellFormed) (h : env.lookup name = env₀.lookup name) :
  Answers σ (lookup env name) (fun _ => Eq) (env₀.lookup name)
  := by
  rw [lookup, h]
  cases env₀.lookup name with
  | none => exact answers_fault _
  | some => exact answers_pure hσ rfl

theorem lookup_of_operand (h : (operand env (.ident name)).Returns σ v σ') :
  ∃ x, env.lookup name = some x ∧ v = .var x ∧ σ' = σ
  := by
  obtain ⟨w, _, hw, h⟩ := Returns.of_bind h
  obtain ⟨x, _, hx, hw⟩ := Returns.of_bind hw
  rw [lookup] at hx
  split at hx
  next hname =>
    cases hx
    cases hw
    cases h
    exact ⟨x, hname, rfl, rfl⟩
  · cases hx

theorem answers_operand (hσ : σ.store.WellFormed) (h : env.lookup name = env₀.lookup name) :
  Answers σ (operand env (.ident name)) (fun _ v x => v = .var x) (env₀.lookup name)
  := by
  rw [← h]
  cases hx : env.lookup name with
  | some x => exact ⟨.var x, _, returns_operand hx σ, hσ.grownTo_self, rfl⟩
  | none =>
    intro v _ hv
    obtain ⟨x, hx', -⟩ := lookup_of_operand hv
    cases hx.symm.trans hx'

theorem answers_determined (hσ : s.GrownTo σ.store) (hv : σ.store.resolve v' = s.resolve v) :
  Answers σ (determined v') (fun _ => Eq) (s.resolve v).datum?
  := by
  apply Answers.after (returns_withStore _ σ) hσ.wellFormed.grownTo_self
  rw [hv]
  cases s.resolve v with
  | var => exact nofun
  | datum => exact answers_pure hσ.wellFormed rfl

theorem featureOf?_eq (s : Store) (env : Env) (name : Ident) :
  s.featureOf? env name = (env.lookup name >>= fun x => (s.resolve (.var x)).datum?) >>= Datum.feature?
  := by
  rw [Store.featureOf?, bind_assoc]
  congr
  funext x
  cases s.resolve (.var x) <;> rfl

theorem answers_patternFeature {f : FeaturePattern} (hσ : s.GrownTo σ.store)
    (h : Sees s env env₀ f.pinned?.toList) :
  Answers σ (patternFeature env f) (fun _ => Eq) (f.feature? s env₀)
  := by
  cases f with
  | lit l =>
    rw [patternFeature, FeaturePattern.feature?]
    cases Feature.ofLiteral? l with
    | none => exact answers_fault _
    | some => exact answers_pure hσ.wellFormed rfl
  | escaped name =>
    obtain ⟨hname, hwithin⟩ := h name (mem_singleton_self _)
    rw [FeaturePattern.feature?, featureOf?_eq]
    refine ((answers_operand hσ.wellFormed hname).bind (Q := fun _ => Eq) ?_).bind ?_
    · rintro _ x t hx ht rfl
      have hσ := hσ.trans ht
      exact answers_determined hσ (hσ.resolve _ (hwithin x hx))
    · rintro d _ t - ht rfl
      cases d.feature? with
      | none => exact answers_fault _
      | some => exact answers_pure ht.wellFormed rfl

theorem answers_patternLabel {label : Option FeaturePattern} (hσ : s.GrownTo σ.store)
    (h : Sees s env env₀ (label.bind (·.pinned?)).toList) :
  Answers σ (patternLabel env label) (fun _ => Eq) (FeaturePattern.label? s env₀ label)
  := by
  cases label with
  | none => exact answers_pure hσ.wellFormed rfl
  | some f =>
    rw [FeaturePattern.label?, Option.map_eq_bind]
    refine (answers_patternFeature hσ h).bind ?_
    rintro f _ t - ht rfl
    exact answers_pure ht.wellFormed rfl

section

variable (hs : s.WellFormed) (hσ : s.GrownTo σ.store)

include hs hσ

theorem answers_matchLeaf {field : Leaf} {leaf : LeafPattern} (hfield : field.toValue.Within s)
    (hknown : Forall₂ (Holds s σ.store) captures known)
    (h : Sees s env env₀ leaf.pinned?.toList) :
  Answers σ (matchLeaf env captures field leaf)
    (fun t r o => r.1 = o.1 ∧ Forall₂ (Holds s t) r.2 o.2) (leaf.outcome? s env₀ known field.toValue)
  := by
  have hself := hσ.wellFormed.grownTo_self
  cases leaf with
  | lit =>
    apply Answers.after (returns_withStore _ σ) hself
    refine answers_pure hσ.wellFormed ⟨?_, hknown⟩
    exact hσ.compareAll_eq hs Comparison.equality_fieldWise (.cons ⟨hσ.resolve _ hfield, rfl⟩ .nil)
  | ident name =>
    obtain ⟨x, u, hnew, hu, hholds⟩ := returns_newBound hσ hfield
    apply Answers.after hnew hu
    have hknown := forall₂_holds_grow hknown hu
    have hlookup := forall₂_holds_lookup hknown name
    rw [LeafPattern.outcome?]
    cases hfirst : captures.lookup name <;> cases hfirst' : known.lookup name <;> rw [hfirst, hfirst'] at hlookup <;>
      cases hlookup
    · exact answers_pure hu.wellFormed ⟨rfl, rel_append hknown (.cons (hholds name) .nil)⟩
    · rename_i y w hy
      apply Answers.after (returns_withStore _ _) hu.wellFormed.grownTo_self
      refine answers_pure hu.wellFormed ⟨?_, hknown⟩
      exact (hσ.trans hu).compareAll_eq hs Comparison.equality_fieldWise
        (.cons ⟨hy.resolve, (hholds name).resolve⟩ .nil)
  | escaped name =>
    obtain ⟨hname, hwithin⟩ := h name (mem_singleton_self _)
    refine (answers_lookup hσ.wellFormed hname).bind ?_
    rintro x _ t hx ht rfl
    have hσ := hσ.trans ht
    apply Answers.after (returns_withStore _ _) ht.wellFormed.grownTo_self
    refine answers_pure ht.wellFormed ⟨?_, forall₂_holds_grow hknown ht⟩
    exact hσ.compareAll_eq hs Comparison.entailment_fieldWise
      (.cons ⟨hσ.resolve _ (hwithin x hx), hσ.resolve _ hfield⟩ .nil)

theorem answers_matchFields {r : Record} {fields : List (FeaturePattern × LeafPattern)} {waiting : Option VarId}
    (hvalues : ∀ v ∈ r.values, v.Within s) (hknown : Forall₂ (Holds s σ.store) captures known)
    (h : Sees s env env₀ (fields.flatMap fun f => f.1.pinned?.toList ++ f.2.pinned?.toList)) :
  Answers σ (matchFields env r captures waiting fields) (HoldsAll s)
    (Kernel.fieldsOutcome? s env₀ r known waiting fields)
  := by
  induction fields generalizing σ captures known waiting with
  | nil =>
    cases waiting with
    | some x => exact nofun
    | none => exact answers_pure hσ.wellFormed (.some hknown)
  | cons _ _ ih =>
    obtain ⟨hfield, hrest⟩ := forall_mem_append.mp h
    obtain ⟨hf, hleaf⟩ := forall_mem_append.mp hfield
    refine (answers_patternFeature hσ hf).bind ?_
    rintro f _ t - ht rfl
    have hσ := hσ.trans ht
    cases hget : r.get? f with
    | none => exact answers_pure ht.wellFormed .none
    | some =>
      have hfield := hvalues _ (Record.mem_values_of_get? hget)
      refine (answers_matchLeaf (σ := σ.withStore t) hs hσ hfield (forall₂_holds_grow hknown ht) hleaf).bind ?_
      rintro ⟨answer, _⟩ ⟨_, _⟩ u - hu ⟨rfl, hknown⟩
      rcases answer with y | (_ | _)
      · exact ih (σ := σ.withStore u) (hσ.trans hu) hknown hrest
      · exact answers_pure hu.wellFormed .none
      · exact ih (σ := σ.withStore u) (hσ.trans hu) hknown hrest

/-- A record pattern is matched in a store that has grown, with a value for the one of the store before. -/
theorem answers_matchRecord {p : RecordPattern} (hv : σ.store.resolve v' = s.resolve v)
    (h : Sees s env env₀ p.pinned) :
  Answers σ (matchRecord env v' p) (HoldsAll s) (p.outcome? s env₀ v)
  := by
  have h := forall_mem_append.mp h
  refine (answers_determined hσ hv).bind ?_
  rintro d _ t - ht rfl
  have hσ := hσ.trans ht
  cases d with
  | scalar => exact answers_pure ht.wellFormed .none
  | record id =>
    refine (answers_patternLabel (σ := σ.withStore t) hσ h.1).bind ?_
    rintro _ _ u - hu rfl
    have hσ := hσ.trans hu
    apply Answers.after (returns_withStore _ _) hu.wellFormed.grownTo_self
    simp only [Session.withStore_store, hσ.record_eq]
    split
    · exact answers_pure hu.wellFormed .none
    · split
      · exact answers_pure hu.wellFormed .none
      · exact answers_matchFields hs hσ (hs.fields id) .nil h.2

end

theorem answers_matchPattern {p : Kernel.Pattern} (hs : σ.store.WellFormed)
    (hv : v.Within σ.store) (h : Sees σ.store env env p.pinned) :
  Answers σ (matchPattern env v p) (HoldsAll σ.store) (p.outcome? σ.store env v)
  := by
  have hself := hs.grownTo_self
  have hdecided {t : Store} (ht : σ.store.GrownTo t) {r : Except VarId Bool} :
      Answers (σ.withStore t) (decided r >>= fun b => pure (if b then some [] else none)) (HoldsAll σ.store)
        (r.toOption >>= fun b => some (if b then some [] else none)) := by
    rcases r with x | (_ | _)
    · exact nofun
    · exact answers_pure ht.wellFormed .none
    · exact answers_pure ht.wellFormed (.some .nil)
  cases p with
  | record => exact answers_matchRecord hs hself rfl h
  | ident name =>
    obtain ⟨x, u, hnew, hu, hholds⟩ := returns_newBound hself hv
    exact .after hnew hu (answers_pure hu.wellFormed (.some (.cons (hholds name) .nil)))
  | lit l =>
    refine (answers_determined hself rfl).bind ?_
    rintro d _ t - ht rfl
    have hequals : t.equals (.datum d) (.lit l) = σ.store.equals (.datum d) (.lit l) :=
      ht.compareAll_eq hs Comparison.equality_fieldWise (.cons ⟨rfl, rfl⟩ .nil)
    rw [← hequals]
    exact hdecided ht
  | escaped name =>
    obtain ⟨hname, hwithin⟩ := h name (mem_singleton_self _)
    refine (answers_lookup hs hname).bind ?_
    rintro x _ t hx ht rfl
    have hentails : t.entails (.var x) v = σ.store.entails (.var x) v :=
      ht.compareAll_eq hs Comparison.entailment_fieldWise (.cons ⟨ht.resolve _ (hwithin x hx), ht.resolve _ hv⟩ .nil)
    rw [← hentails]
    exact hdecided ht

/-! ### What is captured -/

section Captures

variable {r : Record} {fields : List (FeaturePattern × LeafPattern)} {f : FeaturePattern}
  {leaf : LeafPattern} {waiting : Option VarId} {all : Captures} {names : List Ident}
  {P : Value → Prop}

/-- A match that waits for a variable can only fail. -/
theorem fieldsOutcome?_waiting {result : Option Captures} (hwaiting : waiting ≠ none)
    (h : Kernel.fieldsOutcome? s env r known waiting fields = some result) :
  result = none
  := by
  induction fields generalizing known waiting with
  | nil =>
    cases waiting with
    | none => exact absurd rfl hwaiting
    | some => cases h
  | cons _ _ ih =>
    obtain ⟨_, -, h⟩ := Option.bind_eq_some_iff.mp h
    split at h
    · cases h
      rfl
    · obtain ⟨⟨answer, _⟩, -, h⟩ := Option.bind_eq_some_iff.mp h
      rcases answer with y | (_ | _)
      · exact ih (by simp) h
      · cases h
        rfl
      · exact ih hwaiting h

theorem fieldsOutcome?_cons (h : Kernel.fieldsOutcome? s env r known none ((f, leaf) :: fields) = some (some all)) :
  ∃ feature field known', f.feature? s env = some feature ∧ r.get? feature = some field ∧
    leaf.outcome? s env known field.toValue = some (.ok true, known') ∧
    Kernel.fieldsOutcome? s env r known' none fields = some (some all)
  := by
  obtain ⟨feature, hfeature, h⟩ := Option.bind_eq_some_iff.mp h
  split at h
  · cases h
  next field hget =>
    obtain ⟨⟨answer, known'⟩, hleaf, h⟩ := Option.bind_eq_some_iff.mp h
    rcases answer with y | (_ | _)
    · cases fieldsOutcome?_waiting (by simp) h
    · cases h
    · exact ⟨feature, field, known', hfeature, hget, hleaf, h⟩

/-- Values with a property, under these names. -/
structure Caught (P : Value → Prop) (names : List Ident) (known : Captures) : Prop where
  names : ∀ x, x ∈ known.map (·.1) ↔ x ∈ names
  values : ∀ y ∈ known, P y.2

theorem Caught.nil (P : Value → Prop) :
  Caught P [] []
  := ⟨by simp, by simp⟩

theorem Caught.of_leaf {answer : Except VarId Bool} (h : Caught P names known) (hv : P v)
    (hleaf : leaf.outcome? s env known v = some (answer, all)) :
  Caught P (names ++ leaf.capture?.toList) all
  := by
  cases leaf with
  | lit =>
    cases hleaf
    simpa [LeafPattern.capture?] using h
  | escaped =>
    obtain ⟨x, -, hleaf⟩ := Option.bind_eq_some_iff.mp hleaf
    cases hleaf
    simpa [LeafPattern.capture?] using h
  | ident name =>
    rw [LeafPattern.outcome?] at hleaf
    split at hleaf <;> cases hleaf
    next first hfirst =>
      have hmem : name ∈ names := (h.names name).mp (mem_map_of_mem (Env.mem_of_lookup hfirst))
      refine ⟨fun x => ?_, h.values⟩
      rw [h.names, mem_append, LeafPattern.capture?, Option.toList_some, mem_singleton]
      exact ⟨.inl, fun hx => hx.elim id fun hx => hx ▸ hmem⟩
    next =>
      refine ⟨by simp [LeafPattern.capture?, ← h.names], ?_⟩
      exact forall_mem_append.mpr ⟨h.values, forall_mem_singleton.mpr hv⟩

theorem Caught.of_fields (h : Caught P names known) (hvalues : ∀ v ∈ r.values, P v)
    (hfields : Kernel.fieldsOutcome? s env r known none fields = some (some all)) :
  Caught P (names ++ fields.filterMap (·.2.capture?)) all
  := by
  induction fields generalizing names known with
  | nil =>
    cases hfields
    simpa using h
  | cons field _ ih =>
    obtain ⟨f, leaf⟩ := field
    obtain ⟨_, _, _, -, hget, hleaf, hrest⟩ := fieldsOutcome?_cons hfields
    have hall := ih (h.of_leaf (hvalues _ (Record.mem_values_of_get? hget)) hleaf) hrest
    cases hcapture : leaf.capture? <;> simpa [hcapture] using hall

theorem recordOutcome?_eq_some {p : RecordPattern} (h : p.outcome? s env v = some (some all)) :
  ∃ id, s.resolve v = .datum (.record id) ∧ (p.isPartial = false → (s.record id).size = p.fields.length) ∧
    Kernel.fieldsOutcome? s env (s.record id) [] none p.fields = some (some all)
  := by
  obtain ⟨d, hd, h⟩ := Option.bind_eq_some_iff.mp h
  have hd := Value.datum?_eq_some_iff.mp hd
  cases d with
  | scalar => cases h
  | record id =>
    obtain ⟨_, -, h⟩ := Option.bind_eq_some_iff.mp h
    dsimp only at h
    split at h
    · cases h
    · split at h
      · cases h
      next hsize =>
        refine ⟨id, hd, fun hpartial => ?_, h⟩
        simpa [hpartial] using hsize

theorem caught_outcome? {p : Kernel.Pattern} (hv : P v)
    (hfields : ∀ id, s.resolve v = .datum (.record id) → ∀ w ∈ (s.record id).values, P w)
    (h : p.outcome? s env v = some (some all)) :
  Caught P p.captures all
  := by
  have hnone {b : Bool} (h : some (if b then some [] else none) = some (some all)) : Caught P [] all := by
    cases b <;> cases h
    exact .nil P
  cases p with
  | ident =>
    cases h
    exact ⟨by simp [Kernel.Pattern.captures], forall_mem_singleton.mpr hv⟩
  | lit | escaped =>
    obtain ⟨_, -, h⟩ := Option.bind_eq_some_iff.mp h
    obtain ⟨b, -, h⟩ := Option.bind_eq_some_iff.mp h
    exact hnone h
  | record =>
    obtain ⟨id, hid, -, h⟩ := recordOutcome?_eq_some h
    exact (Caught.nil P).of_fields (hfields id hid) h

end Captures

/-! ### Matches of ground values -/

/-- The names that a pattern reads are bound to ground values, or to features. -/
structure Readable (s : Store) (env : Env) (uses : List NameUse) : Prop where
  pin : ∀ name, .pin name ∈ uses → ∃ v, env.lookup name = some v ∧ (Value.var v).Within s ∧ s.Ground (.var v)
  exact : ∀ name, .exact name ∈ uses → ∃ v d f, env.lookup name = some v ∧
    (Value.var v).Within s ∧ s.resolve (.var v) = .datum d ∧ d.feature? = some f

theorem Readable.subset (h : Readable s env uses) (hsub : uses' ⊆ uses) :
  Readable s env uses' where
  pin name hname := h.pin name (hsub hname)
  exact name hname := h.exact name (hsub hname)

theorem Readable.within (h : Readable s env uses) (hname : name ∈ namesRead uses) {x : VarId}
    (hx : env.lookup name = some x) :
  (Value.var x).Within s
  := by
  obtain ⟨u, hu, hread⟩ := mem_filterMap.mp hname
  cases u <;> cases hread
  · obtain ⟨v, hv, hwithin, -⟩ := h.pin name hu
    cases hv.symm.trans hx
    exact hwithin
  · obtain ⟨v, -, -, hv, hwithin, -⟩ := h.exact name hu
    cases hv.symm.trans hx
    exact hwithin

theorem Readable.feature? {f : FeaturePattern} (h : Readable s env f.uses) (hexact : f.IsExact) :
  (f.feature? s env).isSome
  := by
  cases f with
  | lit l => cases l <;> first | exact rfl | cases hexact
  | escaped name =>
    obtain ⟨v, d, f, hv, -, hd, hf⟩ := h.exact name (mem_singleton_self _)
    simp [FeaturePattern.feature?, Store.featureOf?, hv, hd, hf]

theorem caught_of_ground {p : Kernel.Pattern} {all : Captures} (hs : s.WellFormed) (hv : v.Within s ∧ s.Ground v)
    (h : p.outcome? s env v = some (some all)) :
  Caught (fun w => w.Within s ∧ s.Ground w) p.captures all
  := caught_outcome? hv (fun id hid w hw => ⟨hs.fields id w hw, hv.2.field hid hw⟩) h

theorem ground_lit (s : Store) (l : Literal) :
  s.Ground (.lit l)
  := by
  intro w hw
  have hlit : w = .lit l := by
    generalize hv : Value.lit l = v at hw
    induction hw with
    | self => rfl
    | resolve _ ih =>
      rw [ih, ← hv]
      rfl
    | field _ _ ih =>
      rw [← hv] at ih
      cases ih
  rw [hlit]
  exact ⟨_, rfl⟩

theorem leafOutcome?_eq {leaf : LeafPattern} (hv : s.Ground v) (hreads : Readable s env leaf.uses)
    (hnew : ∀ name, leaf = .ident name → known.lookup name = none) :
  leaf.outcome? s env known v = some (.ok (leaf.match? s env v).isSome, known ++ (leaf.match? s env v).getD [])
  := by
  cases leaf with
  | ident name => simp [LeafPattern.outcome?, LeafPattern.match?, hnew name rfl]
  | lit l =>
    obtain ⟨b, hb⟩ := Store.equals_of_ground hv (ground_lit s l)
    cases b <;> simp [LeafPattern.outcome?, LeafPattern.match?, Store.equalLiteral?, hb, holds]
  | escaped name =>
    obtain ⟨x, hx, -, -⟩ := hreads.pin name (mem_singleton_self _)
    obtain ⟨b, hb⟩ := Store.entails_of_ground (v := .var x) hv
    cases b <;> simp [LeafPattern.outcome?, LeafPattern.match?, Store.entailedBy?, hx, hb, holds]

/-- What the fields of a record capture, feature by feature. -/
def fieldsMatch? (s : Store) (env : Env) (r : Record) :
    List (FeaturePattern × LeafPattern) → Option Captures
  | [] => some []
  | (f, leaf) :: rest => do
    let v ← r.valueAt? (f.feature? s env)
    let here ← leaf.match? s env v
    let more ← fieldsMatch? s env r rest
    return here ++ more

theorem fieldsMatch?_eq (s : Store) (env : Env) (r : Record) (fields : List (FeaturePattern × LeafPattern)) :
  fieldsMatch? s env r fields = ((fields.map (·.1.feature? s env)).mapM r.valueAt?).bind
      (matchLeaves? s env (fields.map (·.2)))
  := by
  induction fields with
  | nil => rfl
  | cons field rest ih =>
    obtain ⟨f, leaf⟩ := field
    simp only [fieldsMatch?, ih, map_cons, mapM_cons, Option.bind_eq_bind,
      Option.bind_assoc, Option.pure_def, Option.bind_some, matchLeaves?]
    cases r.valueAt? (f.feature? s env) with
    | none => rfl
    | some v =>
      simp only [Option.bind_some]
      cases leaf.match? s env v with
      | none => cases (rest.map (·.1.feature? s env)).mapM r.valueAt? <;> rfl
      | some => rfl

theorem fieldsOutcome?_eq (known : Captures) {r : Record} {fields : List (FeaturePattern × LeafPattern)}
    (hvalues : ∀ v ∈ r.values, s.Ground v)
    (hfeatures : ∀ f ∈ fields.map (·.1), (f.feature? s env).isSome)
    (hreads : Readable s env ((fields.map (·.2)).flatMap LeafPattern.uses))
    (hnodup : (known.map (·.1) ++ captured ((fields.map (·.2)).flatMap LeafPattern.uses)).Nodup) :
  Kernel.fieldsOutcome? s env r known none fields = some ((fieldsMatch? s env r fields).map (known ++ ·))
  := by
  induction fields generalizing known with
  | nil => simp [Kernel.fieldsOutcome?, fieldsMatch?]
  | cons field rest ih =>
    obtain ⟨f, leaf⟩ := field
    rw [map_cons, forall_mem_cons] at hfeatures
    rw [map_cons, flatMap_cons] at hreads hnodup
    rw [captured_append, ← append_assoc] at hnodup
    obtain ⟨feature, hfeature⟩ := Option.isSome_iff_exists.mp hfeatures.1
    simp only [Kernel.fieldsOutcome?, fieldsMatch?, hfeature, Record.valueAt?, Option.bind_eq_bind,
      Option.bind_some, Option.pure_def]
    cases hget : r.get? feature with
    | none => rfl
    | some field =>
      have hfree : ∀ name, leaf = .ident name → known.lookup name = none := by
        rintro name rfl
        apply Env.lookup_eq_none
        intro hname
        have hdisjoint := nodup_append.mp (nodup_append.mp hnodup).1
        apply hdisjoint.2.2 name hname name _ rfl
        simp [captured, LeafPattern.uses, NameUse.capture?]
      simp only [leafOutcome?_eq (hvalues _ (Record.mem_values_of_get? hget))
        (hreads.subset (subset_append_left _ _)) hfree, Option.bind_some]
      cases hmatch : leaf.match? s env field.toValue with
      | none => rfl
      | some here =>
        have hnodup' : ((known ++ here).map (·.1) ++ captured ((rest.map (·.2)).flatMap LeafPattern.uses)).Nodup := by
          apply Nodup.sublist _ hnodup
          rw [match?_leaf_eq_some hmatch]
          simpa using keys_bindings_sublist [leaf] [field.toValue]
        simp only [Option.isSome_some, Option.getD_some,
          ih _ hfeatures.2 (hreads.subset (subset_append_right _ _)) hnodup']
        cases fieldsMatch? s env r rest <;> simp

theorem label?_of_features {label : Option FeaturePattern} (h : ∀ f ∈ label.toList, (f.feature? s env).isSome) :
  ∃ l, FeaturePattern.label? s env label = some l
  := by
  cases label with
  | none => exact ⟨none, rfl⟩
  | some f =>
    obtain ⟨feature, hfeature⟩ := Option.isSome_iff_exists.mp (h f (by simp))
    exact ⟨some feature, by simp [FeaturePattern.label?, hfeature]⟩

theorem recordOutcome?_eq {p : RecordPattern} (hv : s.Ground v) (hexact : ∀ f ∈ p.exacts, f.IsExact)
    (hreads : Readable s env p.uses) (hnodup : (captured p.uses).Nodup) :
  p.outcome? s env v = some (p.match? s env v)
  := by
  obtain ⟨d, hd⟩ := hv v .self
  cases d with
  | scalar => simp [RecordPattern.outcome?, RecordPattern.match?, Store.fieldsOf?, hd, Value.datum?]
  | record id =>
    have hfeatures : ∀ f ∈ p.exacts, (f.feature? s env).isSome := by
      intro f hf
      refine Readable.feature? (hreads.subset ?_) (hexact f hf)
      exact fun u hu => mem_append_left _ (mem_flatMap.mpr ⟨f, hf, hu⟩)
    rw [RecordPattern.exacts, forall_mem_append] at hfeatures
    obtain ⟨label, hlabel⟩ := label?_of_features hfeatures.1
    have hfields := fieldsOutcome?_eq [] (fun w hw => hv.field hd hw) hfeatures.2
      (hreads.subset (subset_append_right _ _)) (by simpa [captured_uses] using hnodup)
    simp only [RecordPattern.outcome?, RecordPattern.match?, Store.fieldsOf?, hd, Value.datum?, hlabel,
      Option.bind_eq_bind, Option.bind_some, hfields, fieldsMatch?_eq]
    cases p.isPartial <;> by_cases hl : (s.record id).label = label <;>
      by_cases hn : (s.record id).size = p.fields.length <;> simp [hl, hn]

theorem outcome?_eq {p : Kernel.Pattern} (hs : s.WellFormed) (hv : s.Ground v)
    (hexact : ∀ q, p = .record q → ∀ f ∈ q.exacts, f.IsExact) (hreads : Readable s env p.uses)
    (hnodup : (captured p.uses).Nodup) :
  p.outcome? s env v = some (p.match? s env v)
  := by
  cases p with
  | record q => exact recordOutcome?_eq hv (hexact q rfl) hreads hnodup
  | ident => rfl
  | lit l =>
    obtain ⟨d, hd⟩ := hv v .self
    have hequals : s.equals (.datum d) (.lit l) = s.equals v (.lit l) :=
      hs.grownTo_self.compareAll_eq hs Comparison.equality_fieldWise (.cons ⟨hd.symm, rfl⟩ .nil)
    obtain ⟨b, hb⟩ := Store.equals_of_ground hv (ground_lit s l)
    simp [Kernel.Pattern.outcome?, Kernel.Pattern.match?, Store.equalLiteral?, hd, Value.datum?, hequals, hb, holds,
      Except.toOption]
  | escaped name =>
    obtain ⟨x, hx, -, -⟩ := hreads.pin name (mem_singleton_self _)
    obtain ⟨b, hb⟩ := Store.entails_of_ground (v := .var x) hv
    simp [Kernel.Pattern.outcome?, Kernel.Pattern.match?, Store.entailedBy?, hx, hb, holds, Except.toOption]

end Exec

end ActorLang
