import Mathlib
import ActorLang.Proofs.Pattern.Matching

/-!
# Lowered patterns on the machine

The machine matches the root of a lowered pattern, and then its children, each in the environment
that the patterns before it leave.  So a child reads the captured value of a name, while the pattern
as written reads the value that the name had outside.
-/

namespace ActorLang

open Kernel (Ident FeaturePattern LeafPattern RecordPattern matchLeaves?)
open List

/-! ### The names of kernel patterns -/

variable {p : RecordPattern} {name : Ident}
  {captures before all : Captures} {root : Kernel.Pattern} {bound : List (Ident × VarId)}
  {σ : Session} {children : List ChildPattern} {s t : Store} {v w : Value} {env env' : Env}

theorem Kernel.RecordPattern.mem_pinned (h : .pin name ∈ p.uses ∨ .exact name ∈ p.uses) :
  name ∈ p.pinned
  := by
  simp only [RecordPattern.uses, exacts, mem_append, mem_flatMap, mem_map] at h
  rcases h with (⟨f, -, hf⟩ | ⟨leaf, ⟨field, hfield, rfl⟩, hleaf⟩) |
    ⟨f, hlabel | ⟨field, hfield, rfl⟩, hf⟩ | ⟨leaf, -, hleaf⟩
  · cases f <;> simp [FeaturePattern.uses] at hf
  · apply mem_append_right
    rw [mem_flatMap]
    refine ⟨field, hfield, ?_⟩
    cases hescaped : field.2 <;> simp_all [LeafPattern.uses, LeafPattern.pinned?]
  · apply mem_append_left
    cases f <;> simp_all [FeaturePattern.uses, FeaturePattern.pinned?]
  · apply mem_append_right
    rw [mem_flatMap]
    refine ⟨field, hfield, ?_⟩
    cases hescaped : field.1 <;> simp_all [FeaturePattern.uses, FeaturePattern.pinned?]
  · cases leaf <;> simp [LeafPattern.uses] at hleaf

namespace Exec

open Lowering

/-! ### Children -/

/-- Matches child patterns, each in the environment that those before it leave. -/
def matchChildren (env : Env) : List ChildPattern → Exec (Option Env)
  | [] => return some env
  | child :: rest => do
    match ← matchPattern env (← operand env (.ident child.arg)) (.record child.pattern) with
    | some captures => matchChildren (env.extend captures) rest
    | none => return none

/-- Matches a lowered pattern, and gives the environment that it leaves. -/
def matchLowered (env : Env) (value : Value) (root : Kernel.Pattern)
    (children : List ChildPattern) : Exec (Option Env) := do
  match ← matchPattern env value root with
  | some captures => matchChildren (env.extend captures) children
  | none => return none

/-- No child reads a name that is captured before it. -/
def ReadsOuter (known : List Ident) : List ChildPattern → Prop
  | [] => True
  | child :: rest =>
    (∀ x ∈ child.pattern.pinned, x ∉ known) ∧ ReadsOuter (known ++ child.pattern.captures) rest

/-- The environment is `env` with variables for what was captured. -/
def Extends (s t : Store) (env env' : Env) (captures : Captures) : Prop :=
  ∃ bound, env' = env.extend bound ∧ Forall₂ (Holds s t) bound captures

theorem lookup_extend (name : Ident) (hnodup : (bound.map (·.1)).Nodup) :
  (env.extend bound).lookup name = (bound.lookup name).or (env.lookup name)
  := by
  have hreverse : bound.reverse.lookup name = bound.lookup name := by
    by_cases hname : name ∈ bound.map (·.1)
    · obtain ⟨⟨_, v⟩, hv, rfl⟩ := mem_map.mp hname
      rw [lookup_of_mem hnodup hv]
      apply lookup_of_mem _ (mem_reverse.mpr hv)
      rw [map_reverse]
      apply (reverse_perm _).nodup_iff.mpr hnodup
    · rw [Env.lookup_eq_none hname, Env.lookup_eq_none]
      simpa using hname
  rw [Env.extend, lookup_append, hreverse]

theorem forall₂_holds_mem (h : Forall₂ (Holds s t) bound captures) {y : Ident × Value} (hy : y ∈ captures) :
  ∃ x ∈ bound, Holds s t x y
  := by
  induction h with
  | nil => cases hy
  | @cons x z _ _ hx _ ih =>
    rcases mem_cons.mp hy with rfl | hy
    · exact ⟨x, mem_cons_self, hx⟩
    · obtain ⟨x', hx', hheld⟩ := ih hy
      exact ⟨x', mem_cons_of_mem _ hx', hheld⟩

theorem Extends.lookup_mem (h : Extends s t env env' captures)
    (hnodup : (captures.map (·.1)).Nodup) (hmem : (name, w) ∈ captures) :
  ∃ x, env'.lookup name = some x ∧ (Value.var x).Within t ∧ t.resolve (.var x) = s.resolve w
  := by
  obtain ⟨_, rfl, hholds⟩ := h
  rw [← forall₂_holds_keys hholds] at hnodup
  obtain ⟨⟨_, x⟩, hx, hheld⟩ := forall₂_holds_mem hholds hmem
  obtain ⟨rfl, hwithin, hresolve⟩ := hheld
  refine ⟨x, ?_, hwithin, hresolve⟩
  rw [lookup_extend _ hnodup, lookup_of_mem hnodup hx]
  rfl

theorem Extends.lookup_not_mem (h : Extends s t env env' captures)
    (hnodup : (captures.map (·.1)).Nodup) (hname : name ∉ captures.map (·.1)) :
  env'.lookup name = env.lookup name
  := by
  obtain ⟨_, rfl, hholds⟩ := h
  rw [← forall₂_holds_keys hholds] at hnodup hname
  rw [lookup_extend name hnodup, Env.lookup_eq_none hname]
  rfl

/-- The machine decides whether the children match, and captures what they capture. -/
theorem answers_matchChildren (hs : s.WellFormed) (ht : s.GrownTo σ.store)
    (henv : Extends s σ.store env env' before)
    (hbefore : ∀ x ∈ before, x.2.Within s ∧ s.Ground x.2)
    (hexact : ∀ child ∈ children, ∀ f ∈ child.pattern.exacts, f.IsExact)
    (hreads : Readable s env (childUses children))
    (hnodup : (before.map (·.1) ++ captured (childUses children)).Nodup)
    (hknown : ArgsKnown (before.map (·.1)) children)
    (houter : ReadsOuter (before.map (·.1)) children) :
  Answers σ (matchChildren env' children) (fun t => Option.Rel (Extends s t env))
    (some ((matchChildren? s env children before).map (before ++ ·)))
  := by
  induction children generalizing σ env' before with
  | nil => exact answers_pure ht.wellFormed (.some (by simpa using henv))
  | cons child _ ih =>
    obtain ⟨harg, hknown⟩ := hknown
    obtain ⟨hpinned, houter⟩ := houter
    rw [childUses, flatMap_cons, captured_append, ← append_assoc] at hnodup
    have hkeys := (nodup_append.mp (nodup_append.mp hnodup).1)
    obtain ⟨⟨_, w⟩, hw, rfl⟩ := mem_map.mp harg
    obtain ⟨x, hx, -, hxresolve⟩ := henv.lookup_mem hkeys.1 hw
    have hchild := hreads.subset (subset_append_left _ _)
    have hsees : Sees s env' env child.pattern.pinned := by
      intro name hname
      exact ⟨henv.lookup_not_mem hkeys.1 (hpinned name hname), fun _ => hchild.within (child.pattern.pinned_subset hname)⟩
    have hmatch := answers_matchRecord hs ht hxresolve hsees
    have houtcome := recordOutcome?_eq (hbefore _ hw).2 (hexact child mem_cons_self) hchild hkeys.2.1
    rw [houtcome] at hmatch
    apply Answers.after (returns_operand hx σ) ht.wellFormed.grownTo_self
    simp only [matchChildren?, lookup_of_mem hkeys.1 hw, Option.bind_eq_bind, Option.bind_some]
    obtain ⟨_, t, hmatch, hgrow, hresult⟩ := hmatch
    apply Answers.after hmatch hgrow
    cases hhere : child.pattern.match? s env w with
    | none =>
      rw [hhere] at hresult
      cases hresult
      exact answers_pure hgrow.wellFormed .none
    | some here =>
      rw [hhere] at hresult houtcome
      cases hresult with
      | @some captures _ hholds =>
        have hnames := keys_match?_record hhere
        obtain ⟨bound, rfl, hbound⟩ := henv
        have henv : Extends s t env ((env.extend bound).extend captures) (before ++ here) := by
          refine ⟨bound ++ captures, by simp [Env.extend], ?_⟩
          exact rel_append (forall₂_holds_grow hbound hgrow) hholds
        have hall : ∀ x ∈ before ++ here, x.2.Within s ∧ s.Ground x.2 :=
          forall_mem_append.mpr ⟨hbefore, (caught_of_ground (p := .record _) hs (hbefore _ hw) houtcome).values⟩
        rw [← hnames, ← map_append] at hknown hnodup
        rw [← RecordPattern.captured_uses_eq, ← hnames, ← map_append] at houter
        have hrest := ih (σ := σ.withStore t) (ht.trans hgrow) henv hall
          (fun c hc => hexact c (mem_cons_of_mem _ hc)) (hreads.subset (subset_append_right _ _)) hnodup hknown houter
        simpa [Option.map_eq_bind, Option.bind_assoc] using hrest

/-! ### Lowered patterns -/

theorem captured_childUses (children : List ChildPattern) :
  captured (childUses children) = children.flatMap (·.pattern.captures)
  := by
  induction children with
  | nil => rfl
  | cons _ _ ih =>
    rw [flatMap_cons, ← ih, ← RecordPattern.captured_uses_eq, ← captured_append]
    rfl

section Accounts

variable {low high : Nat} {written lowered : List NameUse}

theorem captured_of_accounts (h : Accounts low high written lowered) :
  ∃ names : List Ident, names.Nodup ∧ (∀ x ∈ names, ¬ Written x) ∧ (captured lowered).Perm (captured written ++ names)
  := by
  obtain ⟨-, names, hnodup, hgenerated, hperm⟩ := h
  refine ⟨names, hnodup, fun x hx => (hgenerated x hx).not_written, ?_⟩
  apply (hperm.filterMap _).trans
  rw [filterMap_append, filterMap_map]
  have hnames : names.filterMap (NameUse.capture? ∘ NameUse.capture) = names :=
    filterMap_some
  rw [hnames]
  apply Perm.refl

theorem nodup_of_accounts (h : Accounts low high written lowered)
    (hwritten : ∀ x ∈ captured written, Written x) (hnodup : (captured written).Nodup) :
  (captured lowered).Nodup
  := by
  obtain ⟨_, hnames, hgenerated, hperm⟩ := captured_of_accounts h
  rw [hperm.nodup_iff, nodup_append]
  refine ⟨hnodup, hnames, ?_⟩
  rintro x hx _ hx' rfl
  apply hgenerated x hx' (hwritten x hx)

theorem written_of_accounts (h : Accounts low high written lowered) (hwritten : ∀ x ∈ captured written, Written x) :
  ((captured lowered).filter fun x => Written x).Perm (captured written)
  := by
  obtain ⟨_, -, hgenerated, hperm⟩ := captured_of_accounts h
  apply (hperm.filter _).trans
  rw [filter_append, filter_eq_self.mpr, filter_eq_nil_iff.mpr, append_nil]
  · simpa using hgenerated
  · simpa using hwritten

theorem Readable.of_accounts (h : Readable s env written) (haccounts : Accounts low high written lowered) :
  Readable s env lowered
  := by
  obtain ⟨-, _, -, -, hperm⟩ := haccounts
  constructor
  · intro name hname
    apply h.pin name
    simpa using hperm.mem_iff.mp hname
  · intro name hname
    apply h.exact name
    simpa using hperm.mem_iff.mp hname

end Accounts

theorem answers_matchLowered (hs : σ.store.WellFormed)
    (hwithin : v.Within σ.store) (hground : σ.store.Ground v)
    (hroot : ∀ q, root = .record q → ∀ f ∈ q.exacts, f.IsExact)
    (hexact : ∀ child ∈ children, ∀ f ∈ child.pattern.exacts, f.IsExact)
    (hreads : Readable σ.store env (root.uses ++ childUses children))
    (hnodup : (captured (root.uses ++ childUses children)).Nodup)
    (hknown : ArgsKnown (captured root.uses) children)
    (houter : ReadsOuter root.captures children) :
  Answers σ (matchLowered env v root children) (fun t => Option.Rel (Extends σ.store t env))
    (some (matchLowered? σ.store env root children v))
  := by
  rw [captured_append] at hnodup
  have hrootReads := hreads.subset (subset_append_left _ _)
  have hmatch := answers_matchPattern hs hwithin
    fun x (hx : x ∈ root.pinned) => ⟨rfl, fun _ => hrootReads.within (root.pinned_subset hx)⟩
  have houtcome := outcome?_eq hs hground hroot hrootReads (nodup_append.mp hnodup).1
  rw [houtcome] at hmatch
  obtain ⟨_, t, hmatch, hgrow, hresult⟩ := hmatch
  apply Answers.after hmatch hgrow
  simp only [matchLowered?]
  cases hhere : root.match? σ.store env v with
  | none =>
    rw [hhere] at hresult
    cases hresult
    exact answers_pure hgrow.wellFormed .none
  | some =>
    rw [hhere] at hresult houtcome
    cases hresult with
    | @some captures _ hholds =>
      have hnames := keys_match?_root hhere
      rw [← Kernel.Pattern.captured_uses_eq] at houter
      rw [← hnames] at hnodup hknown houter
      have hrest := answers_matchChildren (σ := σ.withStore t) hs hgrow ⟨captures, rfl, hholds⟩
        (caught_of_ground hs ⟨hwithin, hground⟩ houtcome).values hexact
        (hreads.subset (subset_append_right _ _)) hnodup hknown houter
      simpa [Option.map_eq_bind] using hrest

/-- The environment after a match: the names of the pattern have the captured values, and other
written names have what they had. -/
structure Binds (s t : Store) (env : Env) (names : List Ident) (env' : Env) (captures : Captures) : Prop where
  perm : (captures.map (·.1)).Perm names
  value : ∀ x w, (x, w) ∈ captures → ∃ v, env'.lookup x = some v ∧ t.resolve (.var v) = s.resolve w
  other : ∀ x, Written x → x ∉ names → env'.lookup x = env.lookup x

theorem Extends.binds {names lowered : List Ident}
    (h : Extends s t env env' all) (hnodup : lowered.Nodup) (hall : all.map (·.1) = lowered)
    (hperm : captures.Perm (writtenOnly all))
    (hnames : (lowered.filter fun x => Written x).Perm names) :
  Binds s t env names env' captures
  := by
  subst hall
  constructor
  · apply (hperm.map _).trans
    rwa [filter_map] at hnames
  · intro x w hx
    obtain ⟨v, hv, -, hresolve⟩ := h.lookup_mem hnodup (mem_filter.mp (hperm.subset hx)).1
    exact ⟨v, hv, hresolve⟩
  · intro x hwritten hx
    apply h.lookup_not_mem hnodup
    intro hmem
    apply hx
    apply hnames.subset
    simpa [hwritten] using hmem

/-- The machine binds what the pattern captures, where it captures what the lowered one does. -/
theorem rel_binds {p : Pattern} {c c' : Context} {result : Option Env}
    (h : p.lower c = .ok ((root, children), c')) (hwritten : ∀ x ∈ captured p.uses, Written x)
    (hnodup : (captured p.uses).Nodup)
    (hresult : Option.Rel (Extends s t env) result (matchLowered? s env root children v)) :
  Option.Rel (Binds s t env (captured p.uses)) result (p.match? s env v)
  := by
  have haccounts := accounts_lower h
  have hnodup := nodup_of_accounts haccounts hwritten hnodup
  have hmeaning : Option.Rel Perm (p.match? s env v) ((matchLowered? s env root children v).map writtenOnly) :=
    match?_lower h hwritten hnodup v
  generalize p.match? s env v = captures at hmeaning ⊢
  cases hlowered : matchLowered? s env root children v with
  | none =>
    rw [hlowered] at hresult hmeaning
    cases hresult
    cases hmeaning
    exact .none
  | some =>
    rw [hlowered] at hresult hmeaning
    cases hresult with
    | some hextends =>
      cases hmeaning with
      | some hperm =>
        exact .some (hextends.binds hnodup (keys_matchLowered? hlowered) hperm (written_of_accounts haccounts hwritten))

/-- A lowered pattern matches on the machine if and only if the pattern matches, and then binds
its names to the same values, if none of its children reads a name captured before it.  The
value for each child is captured before it. -/
theorem matchLowered_iff_match? {p : Pattern} {c c' : Context} {root : Kernel.Pattern}
    {children : List ChildPattern} (h : p.lower c = .ok ((root, children), c'))
    (hwritten : ∀ x ∈ captured p.uses, Written x) (hnodup : (captured p.uses).Nodup)
    (houter : ReadsOuter root.captures children) {σ : Session} {env : Env} {v : Value}
    (hs : σ.store.WellFormed) (hv : v.Within σ.store)
    (hground : σ.store.Ground v) (hreads : Readable σ.store env p.uses) :
  (∀ earlier child later, children = earlier ++ child :: later →
    child.arg ∈ root.captures ++ earlier.flatMap (·.pattern.captures)) ∧
  ∃ t result, (matchLowered env v root children).Returns σ result (σ.withStore t) ∧
    σ.store.GrownTo t ∧
    Option.Rel (Binds σ.store t env (captured p.uses)) result
      (p.match? σ.store env v)
  := by
  have haccounts := accounts_lower h
  have hknown := argsKnown_lower h
  have hnodup' := nodup_of_accounts haccounts hwritten hnodup
  constructor
  · rintro _ _ _ rfl
    have harg := hknown.arg_mem
    rwa [Kernel.Pattern.captured_uses_eq, captured_childUses] at harg
  · obtain ⟨hroot, hexact⟩ := exact_lower h
    obtain ⟨result, t, hreturns, hgrow, hresult⟩ := answers_matchLowered hs hv hground hroot
      hexact (hreads.of_accounts haccounts) hnodup' hknown houter
    exact ⟨t, result, hreturns, hgrow, rel_binds h hwritten hnodup hresult⟩

/-! ### A record that contains itself -/

theorem ground_of_bound (hs : s.WellFormed) (hbound : ∀ slot ∈ s.slots.toList, slot ≠ .unbound) (hv : v.Within s) :
  s.Ground v
  := by
  intro w hw
  have hwithin := hs.within_of_reaches hv hw
  cases hresolve : s.resolve w with
  | datum d => exact ⟨d, rfl⟩
  | var =>
    exfalso
    apply hbound .unbound _ rfl
    apply Array.mem_toList_iff.mpr
    apply Array.mem_of_getElem? (hs.unbound_of_resolve hwithin hresolve)

/-- A store with a record that contains itself and has the value 7, and a variable for `n`. -/
def selfContained (n : Int32) : Store where
  slots := #[.bound (.record 0), .bound (.scalar (.lit (.int32 n)))]
  records := #[⟨none, [(.str "next", .var 0), (.str "value", .lit (.int32 7))]⟩]

/-- The pattern `{'next': {'next': z, 'value': ~x}, 'value': name}`. -/
def twoDeep (name : Ident) : Pattern :=
  .mk default (.record none [ (.mk default (.lit (.str "next")), .mk default (.record none [
      (.mk default (.lit (.str "next")), .mk default (.ident "z")),
      (.mk default (.lit (.str "value")), .mk default (.escaped "x"))] false)),
    (.mk default (.lit (.str "value")), .mk default (.ident name))] false)

def twoDeepRoot (name : Ident) : Kernel.Pattern :=
  .record ⟨none, [(.lit (.str "next"), .ident "$v0"), (.lit (.str "value"), .ident name)], false⟩

def twoDeepChild : ChildPattern where
  arg := "$v0"
  pattern := ⟨none, [(.lit (.str "next"), .ident "z"), (.lit (.str "value"), .escaped "x")], false⟩

theorem lower_twoDeep (name : Ident) :
  (twoDeep name).lower {} = .ok ((twoDeepRoot name, [twoDeepChild]), { next := 1 })
  := rfl

theorem selfContained_wellFormed (n : Int32) :
  (selfContained n).WellFormed
  := .of_no_link (of_decide_eq_true rfl) (of_decide_eq_true rfl)

theorem selfContained_within (n : Int32) {v : VarId} (hv : v < 2) :
  (Value.var v).Within (selfContained n)
  := hv

theorem selfContained_ground (n : Int32) {v : VarId} (hv : v < 2) :
  (selfContained n).Ground (.var v)
  := by
  apply ground_of_bound (selfContained_wellFormed n) _ (selfContained_within n hv)
  simp [selfContained]

theorem readable_twoDeep (n : Int32) (name : Ident) :
  Readable (selfContained n) [("x", 1)] (twoDeep name).uses where
  pin x hx := by
    have hx : x = "x" := by
      simpa [twoDeep, Pattern.uses, PatternForm.uses, fieldUses, Pattern.exactUses, Pattern.form] using hx
    rw [hx]
    exact ⟨1, rfl, selfContained_within n (by decide), selfContained_ground n (by decide)⟩
  exact x hx := by
    simp [twoDeep, Pattern.uses, PatternForm.uses, fieldUses, Pattern.exactUses, Pattern.form] at hx

def sessionOf (s : Store) : Session where
  machine := { store := s }
  world := default

/-- The pattern matches the record if `x` is bound to 7, and then `z` is the record. -/
theorem matchLowered_iff_match?_selfContained :
  ∃ t env', (matchLowered [("x", 1)] (.var 0) (twoDeepRoot "y") [twoDeepChild]).Returns
      (sessionOf (selfContained 7)) (some env') ((sessionOf (selfContained 7)).withStore t) ∧
    (∃ v, env'.lookup "y" = some v ∧ t.resolve (.var v) = .lit (.int32 7)) ∧
    ∃ v, env'.lookup "z" = some v ∧ t.resolve (.var v) = .datum (.record 0)
  := by
  have houter : ReadsOuter (twoDeepRoot "y").captures [twoDeepChild] := by
    simp [ReadsOuter, twoDeepRoot, twoDeepChild, Kernel.Pattern.captures, RecordPattern.captures,
      RecordPattern.pinned, LeafPattern.capture?, LeafPattern.pinned?, FeaturePattern.pinned?]
  obtain ⟨-, t, _, hreturns, -, hresult⟩ := matchLowered_iff_match?
    (σ := sessionOf (selfContained 7)) (lower_twoDeep "y") (by decide) (by decide) houter
    (selfContained_wellFormed 7) (selfContained_within 7 (by decide : 0 < 2))
    (selfContained_ground 7 (by decide)) (readable_twoDeep 7 "y")
  have hmatch : (twoDeep "y").match? (selfContained 7) [("x", 1)] (.var 0) =
      some [("z", .var 0), ("y", .lit (.int32 7))] := by
    cbv
  rw [sessionOf, hmatch] at hresult
  cases hresult with
  | @some env' _ hbinds =>
    refine ⟨t, env', hreturns, ?_, ?_⟩
    · apply hbinds.value "y" (.lit (.int32 7))
      simp
    · apply hbinds.value "z" (.var 0)
      simp

/-- The pattern does not match if `x` is bound to 5.  But if it captures `x` before it reads it,
the machine reads what was captured. -/
theorem matchLowered_captured_pin :
  (twoDeep "x").match? (selfContained 5) [("x", 1)] (.var 0) = none ∧
  ∃ t env', (matchLowered [("x", 1)] (.var 0) (twoDeepRoot "x") [twoDeepChild]).Returns
      (sessionOf (selfContained 5)) (some env') ((sessionOf (selfContained 5)).withStore t)
  := by
  refine ⟨?_, ?_⟩
  · cbv
  · refine ⟨((selfContained 5).newBound (.lit (.int32 7))).2,
      [("z", 0), ("x", 2), ("$v0", 0), ("x", 1)], ?_⟩
    cbv

end Exec

end ActorLang
