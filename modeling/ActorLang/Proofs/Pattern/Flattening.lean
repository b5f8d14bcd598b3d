import ActorLang.Proofs.Lowering.Names
import ActorLang.Proofs.Pattern.Meaning

/-!
# Lowering keeps the meaning of patterns

The root and the children of a lowered pattern together capture the names of the pattern, and
generated names for what it nests.  No name is captured twice, and every child is for a value that
is captured before it.
-/

namespace ActorLang

open Kernel (Ident FeaturePattern LeafPattern RecordPattern matchLeaves?)
open List

/-! ### The names of a pattern -/

/-- What a pattern uses a name for. -/
inductive NameUse where
  | capture (name : Ident)
  /-- The value of the name is to be matched. -/
  | pin (name : Ident)
  /-- The value of the name is a label or feature. -/
  | exact (name : Ident)
  deriving DecidableEq

def NameUse.name : NameUse → Ident
  | capture name => name
  | pin name => name
  | exact name => name

def NameUse.capture? : NameUse → Option Ident
  | capture name => some name
  | _ => none

/-- The name whose value is read. -/
def NameUse.read? : NameUse → Option Ident
  | capture _ => none
  | pin name => some name
  | exact name => some name

def Pattern.exactUses (p : Pattern) : List NameUse :=
  match p.form with
  | .escaped name => [.exact name]
  | _ => []

mutual

def Pattern.uses : Pattern → List NameUse
  | .mk _ form => form.uses

def PatternForm.uses : PatternForm → List NameUse
  | .lit _ => []
  | .ident name => [.capture name]
  | .escaped name => [.pin name]
  | .wildcard => []
  | .record label fields _ =>
    label.toList.flatMap Pattern.exactUses ++ fields.flatMap (·.1.exactUses) ++ fieldUses fields
  | .tuple label patterns _ => label.toList.flatMap Pattern.exactUses ++ valueUses patterns

def fieldUses : List (Pattern × Pattern) → List NameUse
  | [] => []
  | (_, p) :: rest => p.uses ++ fieldUses rest

def valueUses : List Pattern → List NameUse
  | [] => []
  | p :: rest => p.uses ++ valueUses rest

end

def captured (uses : List NameUse) : List Ident := uses.filterMap NameUse.capture?

def namesRead (uses : List NameUse) : List Ident := uses.filterMap NameUse.read?

namespace Kernel

def FeaturePattern.uses : FeaturePattern → List NameUse
  | .lit _ => []
  | .escaped name => [.exact name]

/-- The pattern is no literal that cannot be a feature. -/
def FeaturePattern.IsExact : FeaturePattern → Prop
  | .lit l => l.isFeature = true
  | .escaped _ => True

def LeafPattern.uses : LeafPattern → List NameUse
  | .lit _ => []
  | .ident name => [.capture name]
  | .escaped name => [.pin name]

/-- The labels and features that a record pattern asks for. -/
def RecordPattern.exacts (p : RecordPattern) : List FeaturePattern :=
  p.label.toList ++ p.fields.map (·.1)

def RecordPattern.uses (p : RecordPattern) : List NameUse :=
  p.exacts.flatMap FeaturePattern.uses ++ (p.fields.map (·.2)).flatMap LeafPattern.uses

def Pattern.uses : Kernel.Pattern → List NameUse
  | .lit _ => []
  | .ident name => [.capture name]
  | .escaped name => [.pin name]
  | .record p => p.uses

end Kernel

variable {p : Pattern} {fields : List (Pattern × Pattern)} {patterns : List Pattern}
  {leaves : List LeafPattern} {children more : List ChildPattern} {form : PatternForm}
  {e' : Context} {span : Span} {root : Kernel.Pattern} {low high middle : Nat}
  {written written' lowered lowered' : List NameUse}

namespace Lowering

variable {c c' d d' e : Context} {label : Option Pattern} {l : Option FeaturePattern}
  {fs : List FeaturePattern} {isPartial : Bool} {known known' : List Ident}

def childUses (children : List ChildPattern) : List NameUse := children.flatMap (·.pattern.uses)

/-! ### One list of patterns for fields and values -/

theorem fieldLeaves_eq_valueLeaves (fields : List (Pattern × Pattern)) :
  fieldLeaves fields = valueLeaves (fields.map (·.2))
  := by
  induction fields with
  | nil => rfl
  | cons _ _ ih => simp only [fieldLeaves, map_cons, valueLeaves, ih]

theorem fieldUses_eq_valueUses (fields : List (Pattern × Pattern)) :
  fieldUses fields = valueUses (fields.map (·.2))
  := by
  induction fields with
  | nil => rfl
  | cons _ _ ih => simp only [fieldUses, map_cons, valueUses, ih]

theorem matchFields?_eq_matchAll? (s : Store) (env : Env) (fields : List (Pattern × Pattern)) (values : List Value) :
  matchFields? s env fields values = matchAll? s env (fields.map (·.2)) values
  := by
  induction fields generalizing values with
  | nil => cases values <;> rfl
  | cons _ _ ih => cases values <;> simp [matchFields?, matchAll?, ih]

/-! ### Labels and features -/

theorem exactPattern_eq_ok {cause : LowerCause} {f : FeaturePattern} (h : exactPattern cause p c = .ok (f, c')) :
  c = c' ∧ f.IsExact ∧ f.uses = p.exactUses ∧ ∀ s env, f.feature? s env = p.feature? s env
  := by
  obtain ⟨span, form⟩ := p
  simp only [exactPattern, Pattern.form] at h
  cases form with
  | lit l =>
    simp only at h
    split at h
    · rename_i hl
      obtain ⟨rfl, rfl⟩ := pure_eq_ok_iff.mp h
      exact ⟨rfl, hl, rfl, fun _ _ => rfl⟩
    · exfalso
      apply fail_ne_ok h
  | escaped =>
    obtain ⟨rfl, rfl⟩ := pure_eq_ok_iff.mp h
    exact ⟨rfl, trivial, rfl, fun _ _ => rfl⟩
  | _ =>
    exfalso
    apply fail_ne_ok h

theorem features_eq_ok (h : features fields c = .ok (fs, c')) :
  c = c' ∧ (∀ f ∈ fs, f.IsExact) ∧ fs.flatMap FeaturePattern.uses = fields.flatMap (·.1.exactUses) ∧
    ∀ s env, fs.map (·.feature? s env) = fields.map (·.1.feature? s env)
  := by
  induction fields generalizing c fs with
  | nil =>
    obtain ⟨rfl, rfl⟩ := pure_eq_ok_iff.mp h
    exact ⟨rfl, by simp, rfl, fun _ _ => rfl⟩
  | cons _ _ ih =>
    rw [features, mapM_cons] at h
    obtain ⟨f, d, hf, h⟩ := bind_eq_ok_iff.mp h
    obtain ⟨_, e, hgs, h⟩ := bind_eq_ok_iff.mp h
    obtain ⟨rfl, rfl⟩ := pure_eq_ok_iff.mp h
    obtain ⟨rfl, hexact, huses, hfeature⟩ := exactPattern_eq_ok hf
    obtain ⟨rfl, hexacts, huses', hfeatures⟩ := ih hgs
    refine ⟨rfl, forall_mem_cons.mpr ⟨hexact, hexacts⟩, ?_, ?_⟩
    · rw [flatMap_cons, flatMap_cons, huses, huses']
    · intro s _
      rw [map_cons, map_cons, hfeature, hfeatures]

theorem labelPattern_eq_ok (h : labelPattern label c = .ok (l, c')) :
  c = c' ∧ (∀ f ∈ l.toList, f.IsExact) ∧ l.toList.flatMap FeaturePattern.uses = label.toList.flatMap Pattern.exactUses ∧
    ∀ s env, FeaturePattern.label? s env l = Pattern.label? s env label
  := by
  cases label with
  | none =>
    obtain ⟨rfl, rfl⟩ := pure_eq_ok_iff.mp h
    exact ⟨rfl, by simp, rfl, fun _ _ => rfl⟩
  | some =>
    obtain ⟨f, d, hf, h⟩ := bind_eq_ok_iff.mp h
    obtain ⟨rfl, rfl⟩ := pure_eq_ok_iff.mp h
    obtain ⟨rfl, hexact, huses, hfeature⟩ := exactPattern_eq_ok hf
    refine ⟨rfl, by simpa using hexact, by simp [huses], ?_⟩
    intro s _
    rw [FeaturePattern.label?, Pattern.label?, hfeature]

/-! ### Patterns that nest others -/

/-- The form nests these patterns. -/
inductive Composite : PatternForm → List Pattern → Prop where
  | record (label : Option Pattern) (fields : List (Pattern × Pattern)) (isPartial : Bool) :
      Composite (.record label fields isPartial) (fields.map (·.2))
  | tuple (label : Option Pattern) (patterns : List Pattern) (isPartial : Bool) :
      Composite (.tuple label patterns isPartial) patterns

/-- Induction over patterns: a pattern is a leaf, or it nests patterns. -/
theorem pattern_induction {motive : Pattern → Prop}
    (leaf : ∀ span form, (∀ patterns, ¬ Composite form patterns) → motive (.mk span form))
    (composite : ∀ span form patterns, Composite form patterns → (∀ p ∈ patterns, motive p) →
      motive (.mk span form)) (p : Pattern) :
  motive p
  := by
  obtain ⟨span, form⟩ := p
  cases form with
  | record label fields isPartial =>
    apply composite span _ _ (.record label fields isPartial)
    intro q hq
    obtain ⟨⟨f, q⟩, hmem, rfl⟩ := mem_map.mp hq
    apply pattern_induction leaf composite q
  | tuple label patterns isPartial =>
    apply composite span _ _ (.tuple label patterns isPartial)
    intro q hq
    apply pattern_induction leaf composite q
  | _ =>
    apply leaf
    rintro _ ⟨⟩
decreasing_by
  · have := sizeOf_lt_of_mem hmem
    simp_all
    omega
  · have := sizeOf_lt_of_mem hq
    simp_all
    omega

/-- A record pattern is the lowering of a form with these parts. -/
structure Body (form : PatternForm) (patterns : List Pattern) (p : RecordPattern)
    (leaves : List LeafPattern) : Prop where
  fields : p.fields.map (·.2) = leaves
  exact : ∀ f ∈ p.exacts, f.IsExact
  uses : form.uses = p.exacts.flatMap FeaturePattern.uses ++ valueUses patterns
  meaning : ∀ s env v, ∃ values : Option (List Value), p.match? s env v = values.bind (matchLeaves? s env leaves) ∧
    form.match? s env v = values.bind (matchAll? s env patterns)

theorem length_valueLeaves (h : valueLeaves patterns c = .ok ((leaves, children), c')) :
  leaves.length = patterns.length
  := by
  induction patterns generalizing c leaves children with
  | nil =>
    obtain ⟨⟨⟩, rfl⟩ := pure_eq_ok_iff.mp h
    rfl
  | cons p _ ih =>
    obtain ⟨⟨_, _⟩, d, -, h⟩ := bind_eq_ok_iff.mp h
    obtain ⟨⟨_, _⟩, e, hrest, h⟩ := bind_eq_ok_iff.mp h
    obtain ⟨⟨⟩, rfl⟩ := pure_eq_ok_iff.mp h
    rw [length_cons, length_cons, ih hrest]

theorem body_of_parts {features : Store → Env → List (Option Feature)}
    (hlabel : labelPattern label d = .ok (l, d')) (hexact : ∀ f ∈ fs, f.IsExact)
    (hlength : leaves.length = fs.length)
    (hfeatures : ∀ s env, fs.map (·.feature? s env) = features s env)
    (huses : form.uses = label.toList.flatMap Pattern.exactUses ++ fs.flatMap FeaturePattern.uses ++ valueUses patterns)
    (hmatch : ∀ s env v, form.match? s env v = (s.fieldsOf? v (Pattern.label? s env label) (features s env) isPartial).bind (matchAll? s env patterns)) :
  Body form patterns ⟨l, fs.zip leaves, isPartial⟩ leaves
  := by
  obtain ⟨-, hlexact, hluses, hl⟩ := labelPattern_eq_ok hlabel
  have hfst : (fs.zip leaves).map (·.1) = fs := map_fst_zip (by omega)
  have hsnd : (fs.zip leaves).map (·.2) = leaves := map_snd_zip (by omega)
  constructor
  · apply hsnd
  · simp only [RecordPattern.exacts, hfst]
    exact forall_mem_append.mpr ⟨hlexact, hexact⟩
  · rw [huses, RecordPattern.exacts, hfst, flatMap_append, hluses]
  · intro s env v
    refine ⟨_, ?_, hmatch s env v⟩
    have hmap : (fs.zip leaves).map (·.1.feature? s env) = features s env := by
      rw [← hfeatures s env, ← hfst, map_map, hfst]
      rfl
    simp only [RecordPattern.match?, hmap, hsnd, hl]
    rfl

theorem body_record (hfeatures : features fields c = .ok (fs, c')) (hlabel : labelPattern label d = .ok (l, d'))
    (hleaves : valueLeaves (fields.map (·.2)) e = .ok ((leaves, children), e')) :
  Body (.record label fields isPartial) (fields.map (·.2)) ⟨l, fs.zip leaves, isPartial⟩ leaves
  := by
  obtain ⟨-, hexact, huses, hfs⟩ := features_eq_ok hfeatures
  have hlength := congrArg List.length (hfs {} [])
  apply body_of_parts hlabel hexact _ hfs
  · rw [PatternForm.uses, fieldUses_eq_valueUses, huses]
  · intro s _ v
    simp only [PatternForm.match?, matchFields?_eq_matchAll?]
    rfl
  · simpa [length_valueLeaves hleaves] using hlength.symm

theorem body_tuple (hlabel : labelPattern label d = .ok (l, d'))
    (hleaves : valueLeaves patterns e = .ok ((leaves, children), e')) :
  Body (.tuple label patterns isPartial) patterns ⟨l, (positions leaves.length).zip leaves, isPartial⟩ leaves
  := by
  refine body_of_parts hlabel ?_ ?_ (fun s env => map_map) ?_ fun s _ v => ?_
  · simp [positions, FeaturePattern.IsExact, Literal.isFeature]
  · simp [positions]
  · simp [PatternForm.uses, positions, FeaturePattern.uses]
  · simp only [length_valueLeaves hleaves]
    rfl

theorem formLeaf_composite {leaf : LeafPattern} (hform : Composite form patterns)
    (h : formLeaf form c = .ok ((leaf, children), c')) :
  ∃ p leaves nested, leaf = .ident (tempName c.next) ∧ children = ⟨tempName c.next, p⟩ :: nested ∧
    valueLeaves patterns { c with next := c.next + 1 } = .ok ((leaves, nested), c') ∧
    Body form patterns p leaves
  := by
  cases hform with
  | record =>
    obtain ⟨_, d, hfs, h⟩ := bind_eq_ok_iff.mp h
    obtain ⟨_, e, harg, h⟩ := bind_eq_ok_iff.mp h
    obtain ⟨l, _, hl, h⟩ := bind_eq_ok_iff.mp h
    obtain ⟨⟨leaves, nested⟩, _, hleaves, h⟩ := bind_eq_ok_iff.mp h
    obtain ⟨⟨⟩, rfl⟩ := pure_eq_ok_iff.mp h
    obtain ⟨rfl, -⟩ := features_eq_ok hfs
    obtain ⟨rfl, rfl⟩ := freshTemp_eq_ok_iff.mp harg
    obtain ⟨rfl, -⟩ := labelPattern_eq_ok hl
    rw [fieldLeaves_eq_valueLeaves] at hleaves
    exact ⟨_, leaves, nested, rfl, rfl, hleaves, body_record hfs hl hleaves⟩
  | tuple =>
    obtain ⟨_, e, harg, h⟩ := bind_eq_ok_iff.mp h
    obtain ⟨l, _, hl, h⟩ := bind_eq_ok_iff.mp h
    obtain ⟨⟨leaves, nested⟩, _, hleaves, h⟩ := bind_eq_ok_iff.mp h
    obtain ⟨⟨⟩, rfl⟩ := pure_eq_ok_iff.mp h
    obtain ⟨rfl, rfl⟩ := freshTemp_eq_ok_iff.mp harg
    obtain ⟨rfl, -⟩ := labelPattern_eq_ok hl
    exact ⟨_, leaves, nested, rfl, rfl, hleaves, body_tuple hl hleaves⟩

theorem lower_composite (hform : Composite form patterns)
    (h : (Pattern.mk span form).lower c = .ok ((root, children), c')) :
  ∃ p leaves, root = .record p ∧ valueLeaves patterns c = .ok ((leaves, children), c') ∧ Body form patterns p leaves
  := by
  cases hform with
  | record =>
    obtain ⟨_, d, hfs, h⟩ := bind_eq_ok_iff.mp h
    obtain ⟨l, _, hl, h⟩ := bind_eq_ok_iff.mp h
    obtain ⟨⟨leaves, _⟩, _, hleaves, h⟩ := bind_eq_ok_iff.mp h
    obtain ⟨⟨⟩, rfl⟩ := pure_eq_ok_iff.mp h
    obtain ⟨rfl, -⟩ := features_eq_ok hfs
    obtain ⟨rfl, -⟩ := labelPattern_eq_ok hl
    rw [fieldLeaves_eq_valueLeaves] at hleaves
    exact ⟨_, leaves, rfl, hleaves, body_record hfs hl hleaves⟩
  | tuple =>
    obtain ⟨l, _, hl, h⟩ := bind_eq_ok_iff.mp h
    obtain ⟨⟨leaves, _⟩, _, hleaves, h⟩ := bind_eq_ok_iff.mp h
    obtain ⟨⟨⟩, rfl⟩ := pure_eq_ok_iff.mp h
    obtain ⟨rfl, -⟩ := labelPattern_eq_ok hl
    exact ⟨_, leaves, rfl, hleaves, body_tuple hl hleaves⟩

/-! ### The names of a lowered pattern -/

theorem perm_interchange {α : Type} (as bs cs ds : List α) :
  (as ++ bs ++ (cs ++ ds)).Perm (as ++ cs ++ (bs ++ ds))
  := by
  rw [append_assoc, append_assoc]
  apply Perm.append_left
  rw [← append_assoc, ← append_assoc]
  apply Perm.append_right
  apply perm_append_comm

/-- The names of the lowering are those that are written, and some that are generated. -/
structure Accounts (low high : Nat) (written lowered : List NameUse) : Prop where
  le : low ≤ high
  generated : ∃ names : List Ident, names.Nodup ∧ (∀ x ∈ names, Generated low high x) ∧
    lowered.Perm (written ++ names.map .capture)

theorem Accounts.generate {name : Ident} (h : name = tempName low ∨ name = anonymousName low) :
  Accounts low (low + 1) [] [.capture name]
  := by
  refine ⟨by omega, [name], by simp, ?_, by simp⟩
  simp only [mem_singleton, forall_eq]
  exact ⟨low, by omega, by omega, h⟩

theorem Accounts.append (h : Accounts low middle written lowered) (h' : Accounts middle high written' lowered') :
  Accounts low high (written ++ written') (lowered ++ lowered')
  := by
  obtain ⟨hle, names, hnodup, hgen, hperm⟩ := h
  obtain ⟨hle', names', hnodup', hgen', hperm'⟩ := h'
  refine ⟨by omega, names ++ names', ?_, ?_, ?_⟩
  · rw [nodup_append]
    refine ⟨hnodup, hnodup', ?_⟩
    rintro x hx _ hx' rfl
    apply (hgen x hx).disjoint (hgen' x hx')
  · exact forall_mem_append.mpr ⟨fun x hx => (hgen x hx).mono (Nat.le_refl _) hle',
      fun x hx => (hgen' x hx).mono hle (Nat.le_refl _)⟩
  · rw [map_append]
    apply (hperm.append hperm').trans (perm_interchange _ _ _ _)

/-! ### The order of children -/

/-- Every child is for a name that is known, or that an earlier child captures. -/
def ArgsKnown (known : List Ident) : List ChildPattern → Prop
  | [] => True
  | child :: rest => child.arg ∈ known ∧ ArgsKnown (known ++ captured child.pattern.uses) rest

theorem ArgsKnown.mono (h : ArgsKnown known children) (hsub : known ⊆ known') :
  ArgsKnown known' children
  := by
  induction children generalizing known known' with
  | nil => trivial
  | cons _ _ ih =>
    obtain ⟨harg, hrest⟩ := h
    refine ⟨hsub harg, ih hrest ?_⟩
    apply append_subset.mpr ⟨?_, subset_append_right _ _⟩
    apply Subset.trans hsub (subset_append_left _ _)

theorem ArgsKnown.append (h : ArgsKnown known children) (h' : ArgsKnown known more) :
  ArgsKnown known (children ++ more)
  := by
  induction children generalizing known with
  | nil => apply h'
  | cons _ _ ih =>
    obtain ⟨harg, hrest⟩ := h
    refine ⟨harg, ih hrest (h'.mono ?_)⟩
    apply subset_append_left

theorem ArgsKnown.arg_mem {earlier later : List ChildPattern} {child : ChildPattern}
    (h : ArgsKnown known (earlier ++ child :: later)) :
  child.arg ∈ known ++ captured (childUses earlier)
  := by
  induction earlier generalizing known with
  | nil => simpa [childUses, captured] using h.1
  | cons _ _ ih =>
    obtain ⟨-, hrest⟩ := h
    have := ih hrest
    simpa [childUses, captured] using this

/-! ### What lowering makes -/

/-- Lowering takes numbers only, and makes patterns with these names: those that are written,
and generated ones.  The children ask for labels and features only, each of a value that is
captured before. -/
structure Unnested (written : List NameUse) (c c' : Context) (uses : List NameUse)
    (children : List ChildPattern) : Prop where
  names : Accounts c.next c'.next written (uses ++ childUses children)
  exact : ∀ child ∈ children, ∀ f ∈ child.pattern.exacts, f.IsExact
  args : ArgsKnown (captured uses) children
  frames : c'.frames = c.frames

theorem Unnested.leaf (c : Context) (uses : List NameUse) :
  Unnested uses c c uses []
  := ⟨⟨Nat.le_refl _, [], nodup_nil, by simp, by simp [childUses]⟩, by simp, trivial, rfl⟩

theorem Unnested.append {uses uses' : List NameUse} (h : Unnested written c d uses children)
    (h' : Unnested written' d e uses' more) :
  Unnested (written ++ written') c e (uses ++ uses') (children ++ more)
  := by
  refine ⟨?_, forall_mem_append.mpr ⟨h.exact, h'.exact⟩, ?_, h'.frames.trans h.frames⟩
  · obtain ⟨hle, names, hnodup, hgenerated, hperm⟩ := h.names.append h'.names
    refine ⟨hle, names, hnodup, hgenerated, .trans ?_ hperm⟩
    rw [childUses, flatMap_append]
    apply perm_interchange
  · rw [captured, filterMap_append]
    apply (h.args.mono (subset_append_left _ _)).append
    apply h'.args.mono (subset_append_right _ _)

theorem unnested_valueLeaves
    (ih : ∀ p ∈ patterns, ∀ c c' leaf children, patternLeaf p c = .ok ((leaf, children), c') → Unnested p.uses c c' leaf.uses children)
    (h : valueLeaves patterns c = .ok ((leaves, children), c')) :
  Unnested (valueUses patterns) c c' (leaves.flatMap LeafPattern.uses) children
  := by
  induction patterns generalizing c leaves children with
  | nil =>
    obtain ⟨⟨⟩, rfl⟩ := pure_eq_ok_iff.mp h
    exact .leaf _ _
  | cons p _ ihrest =>
    obtain ⟨⟨_, _⟩, d, hp, h⟩ := bind_eq_ok_iff.mp h
    obtain ⟨⟨_, _⟩, e, hrest, h⟩ := bind_eq_ok_iff.mp h
    obtain ⟨⟨⟩, rfl⟩ := pure_eq_ok_iff.mp h
    exact (ih p mem_cons_self _ _ _ _ hp).append (ihrest (fun q hq => ih q (mem_cons_of_mem _ hq)) hrest)

theorem Body.unnested {p : RecordPattern} (hbody : Body form patterns p leaves)
    (h : Unnested (valueUses patterns) c c' (leaves.flatMap LeafPattern.uses) children) :
  Unnested form.uses c c' p.uses children
  := by
  rw [hbody.uses, RecordPattern.uses, hbody.fields]
  exact (Unnested.leaf c _).append h

theorem unnested_patternLeaf (p : Pattern) :
  ∀ c c' leaf children, patternLeaf p c = .ok ((leaf, children), c') → Unnested p.uses c c' leaf.uses children
  := by
  induction p using pattern_induction with
  | leaf _ form hform =>
    intro c _ leaf _ h
    cases form with
    | wildcard =>
      obtain ⟨_, d, hname, h⟩ := bind_eq_ok_iff.mp h
      obtain ⟨⟨⟩, rfl⟩ := pure_eq_ok_iff.mp h
      obtain ⟨rfl, rfl⟩ := freshAnonymous_eq_ok_iff.mp hname
      exact ⟨Accounts.generate (Or.inr rfl), by simp, trivial, rfl⟩
    | record => exact (hform _ (.record ..)).elim
    | tuple => exact (hform _ (.tuple ..)).elim
    | _ =>
      obtain ⟨⟨⟩, rfl⟩ := pure_eq_ok_iff.mp h
      exact .leaf _ _
  | composite _ _ _ hform ih =>
    intro c _ _ _ h
    obtain ⟨q, _, _, rfl, rfl, hleaves, hbody⟩ := formLeaf_composite hform h
    have hq := hbody.unnested (unnested_valueLeaves ih hleaves)
    refine ⟨?_, forall_mem_cons.mpr ⟨hbody.exact, hq.exact⟩, ⟨?_, ?_⟩, hq.frames⟩
    · exact (Accounts.generate (Or.inl rfl)).append hq.names
    · simp [captured, LeafPattern.uses, NameUse.capture?]
    · apply hq.args.mono (subset_append_right _ _)

/-! ### The root -/

theorem lower_leaf (hform : ∀ patterns, ¬ Composite form patterns)
    (h : (Pattern.mk span form).lower c = .ok ((root, children), c')) :
  children = [] ∧ (∀ q, root ≠ .record q) ∧ ∃ leaf : LeafPattern, formLeaf form c = .ok ((leaf, []), c') ∧
    root.uses = leaf.uses ∧ ∀ s env v, root.match? s env v = leaf.match? s env v
  := by
  cases form with
  | record => exact (hform _ (.record ..)).elim
  | tuple => exact (hform _ (.tuple ..)).elim
  | lit l =>
    obtain ⟨⟨⟩, rfl⟩ := pure_eq_ok_iff.mp h
    exact ⟨rfl, by simp, .lit l, rfl, rfl, fun _ _ _ => rfl⟩
  | ident name =>
    obtain ⟨⟨⟩, rfl⟩ := pure_eq_ok_iff.mp h
    exact ⟨rfl, by simp, .ident name, rfl, rfl, fun _ _ _ => rfl⟩
  | escaped name =>
    obtain ⟨⟨⟩, rfl⟩ := pure_eq_ok_iff.mp h
    exact ⟨rfl, by simp, .escaped name, rfl, rfl, fun _ _ _ => rfl⟩
  | wildcard =>
    obtain ⟨_, d, hname, h⟩ := bind_eq_ok_iff.mp h
    obtain ⟨⟨⟩, rfl⟩ := pure_eq_ok_iff.mp h
    obtain ⟨rfl, rfl⟩ := freshAnonymous_eq_ok_iff.mp hname
    exact ⟨rfl, by simp, .ident _, rfl, rfl, fun _ _ _ => rfl⟩

theorem unnested_lower (h : p.lower c = .ok ((root, children), c')) :
  Unnested p.uses c c' root.uses children ∧ ∀ q, root = .record q → ∀ f ∈ q.exacts, f.IsExact
  := by
  obtain ⟨span, form⟩ := p
  by_cases hform : ∃ patterns, Composite form patterns
  · obtain ⟨_, hform⟩ := hform
    obtain ⟨q, _, rfl, hleaves, hbody⟩ := lower_composite hform h
    refine ⟨hbody.unnested (unnested_valueLeaves (fun q _ => unnested_patternLeaf q) hleaves), ?_⟩
    rintro q ⟨⟩
    apply hbody.exact
  · rw [not_exists] at hform
    obtain ⟨rfl, hroot, leaf, hleaf, huses, -⟩ := lower_leaf hform h
    rw [huses]
    exact ⟨unnested_patternLeaf (.mk span form) c c' leaf [] hleaf, fun q hq => (hroot q hq).elim⟩

section Lower

variable {c c' : Context}

section

variable (h : p.lower c = .ok ((root, children), c'))

include h

theorem accounts_lower :
  Accounts c.next c'.next p.uses (root.uses ++ childUses children)
  := (unnested_lower h).1.names

theorem exact_lower :
  (∀ q, root = .record q → ∀ f ∈ q.exacts, f.IsExact) ∧ ∀ child ∈ children, ∀ f ∈ child.pattern.exacts, f.IsExact
  := ⟨(unnested_lower h).2, (unnested_lower h).1.exact⟩

theorem argsKnown_lower :
  ArgsKnown (captured root.uses) children
  := (unnested_lower h).1.args

theorem frames_lower :
  c'.frames = c.frames
  := (unnested_lower h).1.frames

end

end Lower

end Lowering

end ActorLang
