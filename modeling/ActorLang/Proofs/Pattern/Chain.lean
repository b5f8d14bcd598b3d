import ActorLang.Proofs.Machine.Returns
import ActorLang.Proofs.Pattern.Flattening

/-!
# Matching a root and its children

Matching the root of a lowered pattern and then the children, in order, matches what the pattern
matches in one recursion.  The captures of the two differ in their order, and in generated names.
-/

namespace ActorLang

open Kernel (Ident FeaturePattern LeafPattern RecordPattern matchLeaves?)
open List

/-- The captures of written names. -/
def writtenOnly (captures : Captures) : Captures := captures.filter fun x => Written x.1

theorem writtenOnly_append (as bs : Captures) :
  writtenOnly (as ++ bs) = writtenOnly as ++ writtenOnly bs
  := filter_append ..

variable {α : Type} {name : Ident} {v : Value} {captures before : Captures}
  {leaves : List LeafPattern} {values : List Value} {root : Kernel.Pattern}
  {children : List ChildPattern} {patterns : List Pattern} {c c' : Context}
  {bound : List (Ident × α)}

namespace Lowering

variable {s : Store} {env : Env}

/-! ### Looking up names -/

theorem lookup_of_mem {a : α} (hnodup : (bound.map (·.1)).Nodup) (h : (name, a) ∈ bound) :
  bound.lookup name = some a
  := by
  induction bound with
  | nil => cases h
  | cons first rest ih =>
    obtain ⟨x, b⟩ := first
    obtain ⟨hx, hnodup⟩ := nodup_cons.mp hnodup
    rw [lookup_cons]
    rcases mem_cons.mp h with h | h
    · cases h
      simp
    · have hmem : name ∈ rest.map (·.1) := mem_map_of_mem h
      have hne : (name == x) = false := by
        rw [beq_eq_false_iff_ne]
        rintro rfl
        apply hx hmem
      rw [hne]
      apply ih hnodup h

/-! ### What fields capture -/

/-- What field patterns capture if they match. -/
def bindings (leaves : List LeafPattern) (values : List Value) : Captures :=
  (leaves.zip values).filterMap fun x => x.1.capture?.map (·, x.2)

theorem match?_leaf_eq_some {leaf : LeafPattern} (h : leaf.match? s env v = some captures) :
  captures = bindings [leaf] [v]
  := by
  cases leaf with
  | ident =>
    cases h
    rfl
  | lit =>
    simp only [LeafPattern.match?, Store.equalLiteral?] at h
    split at h <;> cases h
    rfl
  | escaped =>
    obtain ⟨_, -, h⟩ := Option.bind_eq_some_iff.mp h
    split at h <;> cases h
    rfl

theorem bindings_cons (leaf : LeafPattern) (leaves : List LeafPattern) (v : Value) (values : List Value) :
  bindings (leaf :: leaves) (v :: values) = bindings [leaf] [v] ++ bindings leaves values
  := by
  simp only [bindings, ← filterMap_append]
  rfl

theorem matchLeaves?_eq_some (h : matchLeaves? s env leaves values = some captures) :
  captures = bindings leaves values ∧ captures.map (·.1) = captured (leaves.flatMap LeafPattern.uses)
  := by
  fun_induction matchLeaves? s env leaves values generalizing captures with
  | case1 leaf _ v _ ih =>
    obtain ⟨_, hhere, h⟩ := Option.bind_eq_some_iff.mp h
    obtain ⟨_, hmore, h⟩ := Option.bind_eq_some_iff.mp h
    cases h
    obtain ⟨hbindings, hkeys⟩ := ih hmore
    constructor
    · rw [bindings_cons, match?_leaf_eq_some hhere, hbindings]
    · rw [map_append, hkeys, match?_leaf_eq_some hhere]
      cases leaf <;> rfl
  | case2 =>
    cases h
    exact ⟨rfl, rfl⟩
  | case3 => cases h

theorem keys_bindings_sublist (leaves : List LeafPattern) (values : List Value) :
  ((bindings leaves values).map (·.1)).Sublist (captured (leaves.flatMap LeafPattern.uses))
  := by
  induction leaves generalizing values with
  | nil => simp [bindings]
  | cons leaf _ ih =>
    cases values with
    | nil => simp [bindings]
    | cons v values =>
      rw [bindings_cons, map_append, flatMap_cons, captured, filterMap_append]
      apply Sublist.append _ (ih values)
      cases leaf <;> simp [bindings, LeafPattern.capture?, LeafPattern.uses, NameUse.capture?]

/-! ### Children -/

theorem matchChildren?_append (children more : List ChildPattern) (before : Captures) :
  matchChildren? s env (children ++ more) before = do
    let here ← matchChildren? s env children before
    let there ← matchChildren? s env more (before ++ here)
    return here ++ there
  := by
  induction children generalizing before with
  | nil => simp [matchChildren?]
  | cons _ _ ih =>
    simp only [cons_append, matchChildren?, ih, bind_assoc, pure_bind, append_assoc]

theorem captured_exacts (fs : List FeaturePattern) :
  captured (fs.flatMap FeaturePattern.uses) = []
  := by
  induction fs with
  | nil => rfl
  | cons f _ ih =>
    cases f with
    | lit | escaped => apply ih

theorem captured_append (uses more : List NameUse) :
  captured (uses ++ more) = captured uses ++ captured more
  := filterMap_append ..

theorem captured_uses (p : RecordPattern) :
  captured p.uses = captured ((p.fields.map (·.2)).flatMap LeafPattern.uses)
  := by
  rw [RecordPattern.uses, captured_append, captured_exacts, nil_append]

theorem keys_match?_record {p : RecordPattern} (h : p.match? s env v = some captures) :
  captures.map (·.1) = captured p.uses
  := by
  obtain ⟨_, -, h⟩ := Option.bind_eq_some_iff.mp h
  rw [(matchLeaves?_eq_some h).2, captured_uses]

theorem keys_match?_root (h : root.match? s env v = some captures) :
  captures.map (·.1) = captured root.uses
  := by
  cases root with
  | record => apply keys_match?_record h
  | ident =>
    cases h
    rfl
  | lit =>
    simp only [Kernel.Pattern.match?, Store.equalLiteral?] at h
    split at h <;> cases h
    rfl
  | escaped =>
    obtain ⟨_, -, h⟩ := Option.bind_eq_some_iff.mp h
    split at h <;> cases h
    rfl

theorem keys_matchChildren? (h : matchChildren? s env children before = some captures) :
  captures.map (·.1) = captured (childUses children)
  := by
  induction children generalizing before captures with
  | nil =>
    cases h
    rfl
  | cons _ _ ih =>
    obtain ⟨v, -, h⟩ := Option.bind_eq_some_iff.mp h
    obtain ⟨_, hhere, h⟩ := Option.bind_eq_some_iff.mp h
    obtain ⟨_, hmore, h⟩ := Option.bind_eq_some_iff.mp h
    cases h
    rw [map_append, childUses, flatMap_cons, captured_append, keys_match?_record hhere, ih hmore]
    rfl

theorem keys_matchLowered? (h : matchLowered? s env root children v = some captures) :
  captures.map (·.1) = captured (root.uses ++ childUses children)
  := by
  obtain ⟨_, hhere, h⟩ := Option.bind_eq_some_iff.mp h
  obtain ⟨_, hmore, h⟩ := Option.bind_eq_some_iff.mp h
  cases h
  rw [map_append, captured_append, keys_match?_root hhere, keys_matchChildren? hmore]

/-! ### The meaning of a lowered pattern -/

/-- The field pattern of a nested pattern and its children, of which the first is for the value
captured by the field pattern, match what the pattern matches. -/
def KeepsMeaning (s : Store) (env : Env) (p : Pattern) : Prop :=
  ∀ c c' leaf children, patternLeaf p c = .ok ((leaf, children), c') → (∀ x ∈ captured p.uses, Written x) → ∀ v before,
    (∀ name, leaf = .ident name → before.lookup name = some v) →
    (before.map (·.1) ++ captured (childUses children)).Nodup →
    Option.Rel Perm (p.match? s env v) (do
      let here ← leaf.match? s env v
      let more ← matchChildren? s env children before
      return writtenOnly (here ++ more))

theorem rel_append {a b here here' more : Option Captures} {more' : Captures → Option Captures}
    (ha : Option.Rel Perm a (do
      let h ← here
      let m ← more
      return writtenOnly (h ++ m)))
    (hb : ∀ m, more = some m → Option.Rel Perm b (do
      let h ← here'
      let m' ← more' m
      return writtenOnly (h ++ m'))) :
  Option.Rel Perm (do
    let u ← a
    let w ← b
    return u ++ w) (do
    let h ← here
    let h' ← here'
    let m ← more
    let m' ← more' m
    return writtenOnly (h ++ h' ++ (m ++ m')))
  := by
  cases more with
  | none =>
    cases here with
    | none =>
      cases ha
      apply Option.Rel.none
    | some =>
      cases ha
      cases here' with
      | none | some => apply Option.Rel.none
  | some m =>
    have hb := hb m rfl
    cases here with
    | none =>
      cases ha
      apply Option.Rel.none
    | some =>
      cases ha with
      | some hperm =>
        cases here' with
        | none =>
          cases hb
          apply Option.Rel.none
        | some =>
          simp only [Option.bind_eq_bind, Option.bind_some] at hb ⊢
          cases hm : more' m with
          | none =>
            rw [hm] at hb
            cases hb
            apply Option.Rel.none
          | some =>
            rw [hm] at hb
            cases hb with
            | some hperm' =>
              apply Option.Rel.some
              apply (hperm.append hperm').trans
              rw [← writtenOnly_append]
              apply (perm_interchange _ _ _ _).filter

theorem keepsMeaning_all (ih : ∀ p ∈ patterns, KeepsMeaning s env p)
    (h : valueLeaves patterns c = .ok ((leaves, children), c'))
    (hwritten : ∀ x ∈ captured (valueUses patterns), Written x)
    (hbefore : ∀ name v, (.ident name, v) ∈ leaves.zip values → before.lookup name = some v)
    (hnodup : (before.map (·.1) ++ captured (childUses children)).Nodup) :
  Option.Rel Perm (matchAll? s env patterns values) (do
    let here ← matchLeaves? s env leaves values
    let more ← matchChildren? s env children before
    return writtenOnly (here ++ more))
  := by
  induction patterns generalizing c leaves children values before with
  | nil =>
    obtain ⟨⟨⟩, rfl⟩ := pure_eq_ok_iff.mp h
    cases values with
    | nil => apply Option.Rel.some (Perm.refl _)
    | cons => apply Option.Rel.none
  | cons p _ ihrest =>
    obtain ⟨⟨_, _⟩, d, hp, h⟩ := bind_eq_ok_iff.mp h
    obtain ⟨⟨_, _⟩, e, hrest, h⟩ := bind_eq_ok_iff.mp h
    obtain ⟨⟨⟩, rfl⟩ := pure_eq_ok_iff.mp h
    cases values with
    | nil => apply Option.Rel.none
    | cons v =>
      simp only [childUses, flatMap_append, captured_append] at hnodup
      simp only [valueUses, captured_append, mem_append] at hwritten
      simp only [matchLeaves?, matchChildren?_append, bind_assoc]
      apply rel_append
      · apply ih p mem_cons_self _ _ _ _ hp
        · intro x hx
          apply hwritten x (Or.inl hx)
        · intro name hleaf
          apply hbefore name v
          rw [hleaf]
          apply mem_cons_self
        · apply Nodup.sublist _ hnodup
          simp [childUses]
      · intro _ hthere
        have hkeys := keys_matchChildren? hthere
        apply ihrest (fun q hq => ih q (mem_cons_of_mem _ hq)) hrest
        · intro x hx
          apply hwritten x (Or.inr hx)
        · intro name w hw
          rw [lookup_append, hbefore name w (mem_cons_of_mem _ hw)]
          rfl
        · rw [map_append, append_assoc, hkeys]
          apply hnodup

theorem keepsMeaning_fields (ih : ∀ p ∈ patterns, KeepsMeaning s env p)
    (h : valueLeaves patterns c = .ok ((leaves, children), c'))
    (hwritten : ∀ x ∈ captured (valueUses patterns), Written x)
    (hnodup : (before.map (·.1) ++ captured (leaves.flatMap LeafPattern.uses) ++
      captured (childUses children)).Nodup) (values : List Value) :
  Option.Rel Perm (matchAll? s env patterns values) (do
    let here ← matchLeaves? s env leaves values
    let more ← matchChildren? s env children (before ++ here)
    return writtenOnly (here ++ more))
  := by
  have hkeys := keys_bindings_sublist leaves values
  have hnodup' : ((before ++ bindings leaves values).map (·.1) ++ captured (childUses children)).Nodup := by
    apply Nodup.sublist _ hnodup
    rw [map_append]
    apply Sublist.append_right
    apply Sublist.append_left hkeys
  have hbound : ∀ name v, (.ident name, v) ∈ leaves.zip values →
      (before ++ bindings leaves values).lookup name = some v := by
    intro _ v hv
    apply lookup_of_mem (nodup_append.mp hnodup').1
    apply mem_append_right
    rw [bindings, mem_filterMap]
    exact ⟨_, hv, rfl⟩
  have hall := keepsMeaning_all ih h hwritten hbound hnodup'
  cases hmatch : matchLeaves? s env leaves values with
  | none =>
    rw [hmatch] at hall
    apply hall
  | some =>
    rw [hmatch, (matchLeaves?_eq_some hmatch).1] at hall
    rw [(matchLeaves?_eq_some hmatch).1]
    apply hall

theorem keepsMeaning (s : Store) (env : Env) (p : Pattern) :
  KeepsMeaning s env p
  := by
  induction p using pattern_induction with
  | leaf _ form hform =>
    intro c _ _ _ h hwritten v _ _ _
    cases form with
    | wildcard =>
      obtain ⟨_, d, hname, h⟩ := bind_eq_ok_iff.mp h
      obtain ⟨⟨⟩, rfl⟩ := pure_eq_ok_iff.mp h
      obtain ⟨rfl, rfl⟩ := freshAnonymous_eq_ok_iff.mp hname
      apply Option.Rel.some
      simp [writtenOnly, not_written_anonymousName]
    | record => exact (hform _ (.record ..)).elim
    | tuple => exact (hform _ (.tuple ..)).elim
    | lit =>
      obtain ⟨⟨⟩, rfl⟩ := pure_eq_ok_iff.mp h
      simp only [Pattern.match?, PatternForm.match?, LeafPattern.match?, Store.equalLiteral?]
      split
      · apply Option.Rel.some (Perm.refl _)
      · apply Option.Rel.none
    | ident name =>
      obtain ⟨⟨⟩, rfl⟩ := pure_eq_ok_iff.mp h
      have hname : Written name := by
        apply hwritten name
        simp [captured, Pattern.uses, PatternForm.uses, NameUse.capture?]
      apply Option.Rel.some
      simp [writtenOnly, hname]
    | escaped name =>
      obtain ⟨⟨⟩, rfl⟩ := pure_eq_ok_iff.mp h
      simp only [Pattern.match?, PatternForm.match?, LeafPattern.match?, Store.entailedBy?]
      cases env.lookup name with
      | none => apply Option.Rel.none
      | some =>
        simp only [Option.bind_eq_bind, Option.bind_some]
        split
        · apply Option.Rel.some (Perm.refl _)
        · apply Option.Rel.none
  | composite _ _ _ hform ih =>
    intro c _ _ _ h hwritten v _ hbefore hnodup
    obtain ⟨q, _, _, rfl, rfl, hleaves, hbody⟩ := formLeaf_composite hform h
    obtain ⟨values, hq, hform'⟩ := hbody.meaning s env v
    simp only [Pattern.match?, hform', LeafPattern.match?, matchChildren?, hbefore _ rfl, hq,
      Option.bind_eq_bind, Option.bind_some, Option.bind_assoc, Option.pure_def,
      writtenOnly_append]
    have harg : writtenOnly [(tempName c.next, v)] = [] := by
      simp [writtenOnly, not_written_tempName]
    rw [harg]
    cases values with
    | none => apply Option.Rel.none
    | some values =>
      simp only [childUses, flatMap_cons, captured_append, captured_uses, hbody.fields, ← append_assoc] at hnodup
      simp only [Pattern.uses, hbody.uses, captured_append, captured_exacts] at hwritten
      have hall := keepsMeaning_fields ih hleaves hwritten hnodup values
      simp only [writtenOnly_append] at hall
      apply hall

/-- A lowered pattern matches what the pattern matches, and captures the same values. -/
theorem match?_lower {p : Pattern} (h : p.lower c = .ok ((root, children), c'))
    (hwritten : ∀ x ∈ captured p.uses, Written x)
    (hnodup : (captured (root.uses ++ childUses children)).Nodup) (v : Value) :
  Option.Rel Perm (p.match? s env v) ((matchLowered? s env root children v).map writtenOnly)
  := by
  obtain ⟨span, form⟩ := p
  by_cases hform : ∃ patterns, Composite form patterns
  · obtain ⟨_, hform⟩ := hform
    obtain ⟨q, leaves, rfl, hleaves, hbody⟩ := lower_composite hform h
    obtain ⟨values, hq, hform'⟩ := hbody.meaning s env v
    simp only [Pattern.match?, hform', matchLowered?, Kernel.Pattern.match?, hq]
    cases values with
    | none => apply Option.Rel.none
    | some values =>
      simp only [Kernel.Pattern.uses, captured_append, captured_uses, hbody.fields] at hnodup
      simp only [Pattern.uses, hbody.uses, captured_append, captured_exacts] at hwritten
      have hnodup' : (([] : Captures).map (·.1) ++ captured (leaves.flatMap LeafPattern.uses) ++
          captured (childUses children)).Nodup := hnodup
      have hall := keepsMeaning_fields (fun p _ => keepsMeaning s env p) hleaves hwritten hnodup' values
      simpa [Function.comp_def] using hall
  · rw [not_exists] at hform
    obtain ⟨rfl, -, leaf, hleaf, -, hmatch⟩ := lower_leaf hform h
    have hbefore : ∀ name, leaf = .ident name → (bindings [leaf] [v]).lookup name = some v := by
      rintro _ rfl
      simp [bindings, LeafPattern.capture?]
    have hnodup' : ((bindings [leaf] [v]).map (·.1) ++ captured (childUses [])).Nodup := by
      cases leaf <;> simp [bindings, LeafPattern.capture?, childUses, captured]
    have hall := keepsMeaning s env (.mk span form) c c' leaf [] hleaf hwritten v _ hbefore hnodup'
    cases hv : leaf.match? s env v with
    | none => simpa [matchLowered?, hmatch, hv] using hall
    | some => simpa [matchLowered?, hmatch, matchChildren?, hv] using hall

end Lowering

/-! ### The names of kernel patterns -/

namespace Kernel

theorem RecordPattern.captured_uses_eq (p : RecordPattern) :
  captured p.uses = p.captures
  := by
  rw [Lowering.captured_uses, RecordPattern.captures]
  induction p.fields with
  | nil => rfl
  | cons field _ ih =>
    obtain ⟨f, leaf⟩ := field
    rw [map_cons, flatMap_cons, Lowering.captured_append, ih]
    cases leaf <;> rfl

theorem Pattern.captured_uses_eq (p : Kernel.Pattern) :
  captured p.uses = p.captures
  := by
  cases p with
  | record p => apply p.captured_uses_eq
  | _ => rfl

theorem RecordPattern.pinned_subset (p : RecordPattern) :
  p.pinned ⊆ namesRead p.uses
  := by
  have hexact {f : FeaturePattern} {x : Ident} (hx : x ∈ f.pinned?.toList) (hf : f ∈ p.exacts) :
      x ∈ namesRead p.uses := by
    cases f with
    | lit => cases hx
    | escaped =>
      obtain rfl := mem_singleton.mp hx
      have huse : NameUse.exact x ∈ p.exacts.flatMap FeaturePattern.uses :=
        mem_flatMap.mpr ⟨_, hf, mem_singleton_self _⟩
      exact mem_filterMap.mpr ⟨_, mem_append_left _ huse, rfl⟩
  have hpin {l : LeafPattern} {x : Ident} (hx : x ∈ l.pinned?.toList) (hl : l ∈ p.fields.map (·.2)) :
      x ∈ namesRead p.uses := by
    cases l with
    | lit | ident => cases hx
    | escaped =>
      obtain rfl := mem_singleton.mp hx
      have huse : NameUse.pin x ∈ (p.fields.map (·.2)).flatMap LeafPattern.uses :=
        mem_flatMap.mpr ⟨_, hl, mem_singleton_self _⟩
      exact mem_filterMap.mpr ⟨_, mem_append_right _ huse, rfl⟩
  intro x hx
  rcases mem_append.mp hx with hx | hx
  · obtain ⟨f, hf, hx⟩ := Option.bind_eq_some_iff.mp (Option.mem_toList.mp hx)
    exact hexact (Option.mem_toList.mpr hx) (mem_append_left _ (Option.mem_toList.mpr hf))
  · obtain ⟨⟨_, _⟩, hfield, hx⟩ := mem_flatMap.mp hx
    rcases mem_append.mp hx with hx | hx
    · exact hexact hx (mem_append_right _ (mem_map_of_mem hfield))
    · exact hpin hx (mem_map_of_mem hfield)

theorem Pattern.pinned_subset (p : Kernel.Pattern) :
  p.pinned ⊆ namesRead p.uses
  := by
  cases p with
  | record p => exact p.pinned_subset
  | escaped => exact Subset.refl _
  | _ => exact nil_subset _

end Kernel

end ActorLang
