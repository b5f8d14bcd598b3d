import ActorLang.Proofs.Lowering.Parts
import ActorLang.Proofs.Machine.Quiet
import ActorLang.Proofs.Pattern.Decision

/-!
# Matching a lowered pattern step by step

A lowered pattern is matched by nested statements, one for its root and one for each of its
children.  If the value is ground, the machine comes quietly to what is to be done when the whole
pattern matches, or to what is to be done when it does not.
-/

namespace ActorLang

open Kernel (Ident Operand Stmt FeaturePattern RecordPattern)
open List

variable {known names new names' : List Ident} {α : Type} {t s : Store} {root p : Kernel.Pattern}
  {env₀ env : Env} {v : Value} {result : Option Env} {arg : Operand} {x : Exec α} {a : α}

namespace Lowering

/-- The names that child patterns read and that are not captured before that. -/
def outerPins (known : List Ident) : List ChildPattern → List Ident
  | [] => []
  | child :: rest =>
    child.pattern.pinned.filter (!known.contains ·) ++ outerPins (known ++ child.pattern.captures) rest

/-- The names that a lowered pattern reads from outside. -/
def outerNames (root : Kernel.Pattern) (children : List ChildPattern) : List Ident :=
  root.pinned ++ outerPins root.captures children

/-- No label or feature of a child pattern is a name that is captured before it. -/
def FeaturesOuter (known : List Ident) : List ChildPattern → Prop
  | [] => True
  | child :: rest =>
    (∀ x, .escaped x ∈ child.pattern.exacts → x ∉ known) ∧ FeaturesOuter (known ++ child.pattern.captures) rest

/-- The names that a lowered pattern captures. -/
def loweredCaptures (root : Kernel.Pattern) (children : List ChildPattern) : List Ident :=
  root.captures ++ children.flatMap (·.pattern.captures)

theorem mem_outerPins {children : List ChildPattern} {x : Ident} (yes failed : Stmt)
    (h : x ∈ outerPins known children) :
  x ∉ known ∧ x ∈ (matchChildrenThen children yes failed).occurrences
  := by
  induction children generalizing known with
  | nil => cases h
  | cons _ _ ih =>
    simp only [matchChildrenThen, foldr_cons, Stmt.occurrences, mem_append, mem_filter]
    rcases mem_append.mp h with h | h
    · obtain ⟨hpinned, hknown⟩ := mem_filter.mp h
      exact ⟨by simpa using hknown, .inl (.inl (.inr hpinned))⟩
    · obtain ⟨hknown, hrest⟩ := ih h
      rw [mem_append, not_or] at hknown
      exact ⟨hknown.1, .inl (.inr ⟨hrest, by simpa [Kernel.Pattern.captures] using hknown.2⟩)⟩

theorem outerNames_subset (arg : Operand) (root : Kernel.Pattern) (children : List ChildPattern) (yes failed : Stmt) :
  outerNames root children ⊆ (matchThen arg root children yes failed).occurrences
  := by
  intro x hx
  simp only [matchThen, Stmt.occurrences, mem_append, mem_filter]
  rcases mem_append.mp hx with hx | hx
  · exact .inl (.inl (.inr hx))
  · obtain ⟨hknown, hrest⟩ := mem_outerPins yes failed hx
    exact .inl (.inr ⟨hrest, by simpa using hknown⟩)

end Lowering

open Lowering

namespace Exec

theorem Returns.reframe {σ : Session} (h : x.Returns σ a (σ.withStore t)) (hx : x.Blind) (stack : Stack) (steps : Nat) :
  x.Returns (σ.reframe stack steps) a ((σ.reframe stack steps).withStore t)
  := by
  have hrun := hx σ stack steps
  rwa [show x.run σ = (.ok a, σ.withStore t) from h] at hrun

theorem staged_matchChildren (env : Env) (children : List ChildPattern) :
  Staged .looks (matchChildren env children)
  := by
  induction children generalizing env with
  | nil => exact agree_pure ⟨rfl, trivial⟩
  | cons _ _ ih =>
    apply (staged_operand env _).look
    intro v
    apply (staged_matchPattern env v _).look
    intro result
    cases result with
    | some => exact ih _
    | none => exact agree_pure ⟨rfl, trivial⟩

theorem namesRead_uses_subset (p : Kernel.Pattern) :
  namesRead p.uses ⊆ p.pinned
  := by
  intro x hx
  obtain ⟨u, hu, hread⟩ := mem_filterMap.mp hx
  cases p with
  | record =>
    cases u <;> cases hread
    · exact RecordPattern.mem_pinned (.inl hu)
    · exact RecordPattern.mem_pinned (.inr hu)
  | lit => cases hu
  | escaped | ident =>
    cases mem_singleton.mp hu
    cases hread
    try exact mem_singleton_self _

/-- The names that a lowered pattern reads are read from outside, if no child reads a name captured before it. -/
theorem namesRead_subset_outerNames {children : List ChildPattern} (h : ReadsOuter root.captures children) :
  namesRead (root.uses ++ childUses children) ⊆ outerNames root children
  := by
  have hchildren {known : List Ident} {children : List ChildPattern} (h : ReadsOuter known children) :
      namesRead (childUses children) ⊆ outerPins known children := by
    induction children generalizing known with
    | nil => exact nil_subset _
    | cons child _ ih =>
      obtain ⟨hpinned, hrest⟩ := h
      rw [childUses, flatMap_cons, namesRead, filterMap_append]
      refine append_subset.mpr ⟨fun x hx => ?_, subset_append_of_subset_right _ (ih hrest)⟩
      have hx : x ∈ child.pattern.pinned := namesRead_uses_subset (.record child.pattern) hx
      exact mem_append_left _ (mem_filter.mpr ⟨hx, by simpa using hpinned x hx⟩)
  rw [namesRead, filterMap_append]
  exact append_subset.mpr ⟨subset_append_of_subset_left _ (namesRead_uses_subset root),
    subset_append_of_subset_right _ (hchildren h)⟩

theorem Readable.congr {env env' : Env} {uses : List NameUse} (h : Readable s env uses)
    (hsame : SameRead env env' uses) :
  Readable s env' uses where
  pin x hx := by
    rw [← hsame x (mem_filterMap.mpr ⟨_, hx, rfl⟩)]
    exact h.pin x hx
  exact x hx := by
    rw [← hsame x (mem_filterMap.mpr ⟨_, hx, rfl⟩)]
    exact h.exact x hx

/-- What comes of matching a lowered pattern is what the pattern matches outside, if none of its children reads a name
captured before it. -/
theorem rel_match?_of_returns {p : Pattern} {c c' : Context} {children : List ChildPattern}
    (h : p.lower c = .ok ((root, children), c')) (hwritten : ∀ x ∈ captured p.uses, Written x)
    (hnodup : (captured p.uses).Nodup) (houter : ReadsOuter root.captures children) {σ : Session} {env : Env} (hs : σ.store.WellFormed)
    (hv : v.Within σ.store) (hground : σ.store.Ground v)
    (houtside : ∀ x ∈ outerNames root children, env.lookup x = env₀.lookup x)
    (hreads : Readable σ.store env₀ p.uses)
    (hreturns : (matchLowered env v root children).Returns σ result (σ.withStore t)) :
  Option.Rel (Binds σ.store t env (captured p.uses)) result (p.match? σ.store env₀ v)
  := by
  have haccounts := accounts_lower h
  have hsame : SameRead env₀ env p.uses := by
    intro x hx
    refine (houtside x (namesRead_subset_outerNames houter ?_)).symm
    obtain ⟨-, _, -, -, hperm⟩ := haccounts
    obtain ⟨u, hu, hread⟩ := mem_filterMap.mp hx
    exact mem_filterMap.mpr ⟨u, hperm.mem_iff.mpr (mem_append_left _ hu), hread⟩
  have hnodup' := nodup_of_accounts haccounts hwritten hnodup
  obtain ⟨hroot, hexact⟩ := exact_lower h
  obtain ⟨_, u, hreturns', -, hresult⟩ := answers_matchLowered hs hv hground hroot hexact
    ((hreads.congr hsame).of_accounts haccounts) hnodup' (argsKnown_lower h) houter
  obtain ⟨heq, hstore⟩ := Prod.mk.inj (hreturns.symm.trans hreturns')
  cases heq
  obtain rfl : t = u := congrArg (·.store) hstore
  rw [p.match?_congr hsame]
  exact rel_binds h hwritten hnodup hresult

end Exec

namespace Session

open Exec (Captured Prepared)

variable {σ₀ σ τ : Session} {P : Session → Prop} {rest : Stack} {yes failed : Stmt}

theorem QuietlySince.cases (hσ : σ₀.Undisturbed σ)
    (hconsistent : σ.Consistent) (hstack : σ.stack = .stmt (.cases arg p yes failed) env :: rest)
    (harg : ∀ υ, (Exec.operand env arg).Returns υ v υ) (hv : v.Within σ.store)
    (hground : σ.store.Ground v) (hp : Prepared σ.store env p)
    (hyes : ∀ captures t, (Exec.matchPattern env v p).Returns σ (some captures) (σ.withStore t) →
      Captured t p.captures captures → σ₀.store.Adds t →
      ∀ τ, τ = (σ.reframe (rest.push yes (env.extend captures)) (σ.steps + 1)).withStore t →
      σ.Goes τ → QuietlySince σ₀ τ P)
    (hfailed : ∀ t, (Exec.matchPattern env v p).Returns σ none (σ.withStore t) → σ₀.store.Adds t →
      ∀ τ, τ = (σ.reframe (rest.push failed env) (σ.steps + 1)).withStore t →
      σ.Goes τ → QuietlySince σ₀ τ P) :
  QuietlySince σ₀ σ P
  := by
  have henv : env.Within σ.store := hconsistent.stack (.stmt _ env) (hstack ▸ mem_cons_self)
  obtain ⟨result, t, hreturns, hcaptured⟩ :=
    Exec.matchPattern_of_ground hconsistent.store.wellFormed henv hv hground hp
  have hallows : σ.AddsVars _ := (Exec.staged_matchPattern env v p).allows σ
  rw [show (Exec.matchPattern env v p).run σ = (.ok result, σ.withStore t) from hreturns] at hallows
  have hpopped : (Exec.matchPattern env v p).Returns (σ.popped rest) result ((σ.popped rest).withStore t) :=
    hreturns.reframe (Exec.staged_matchPattern env v p).blind rest (σ.steps + 1)
  have hadds := hσ.store.trans hallows.store.adds
  cases result with
  | some captures =>
    have hrun : (Exec.stmt env (.cases arg p yes failed)).Returns (σ.popped rest)
        (.enter yes (env.extend captures)) ((σ.popped rest).withStore t) :=
      (harg _).bind (hpopped.bind (Exec.returns_pure _ _))
    exact step hσ hstack hrun rfl (hyes captures _ hreturns (hcaptured captures rfl) hadds _ rfl)
  | none =>
    have hrun : (Exec.stmt env (.cases arg p yes failed)).Returns (σ.popped rest) (.enter failed env)
        ((σ.popped rest).withStore t) :=
      (harg _).bind (hpopped.bind (Exec.returns_pure _ _))
    exact step hσ hstack hrun rfl (hfailed _ hreturns hadds _ rfl)

/-- The names stand for ground values. -/
def GroundNames (s : Store) (env : Env) (names : List Ident) : Prop :=
  ∀ x ∈ names, ∃ v, env.lookup x = some v ∧ (Value.var v).Within s ∧ s.Ground (.var v)

theorem GroundNames.extend {captures : List (Ident × VarId)}
    (h : GroundNames s env names) (hs : s.WellFormed) (hle : s.ExtendedBy t) (hcaptures : Captured t new captures) :
  GroundNames t (env.extend captures) (names ++ new)
  := by
  intro x hx
  by_cases hnew : x ∈ captures.map (·.1)
  · obtain ⟨v, hv, hlookup⟩ := Env.lookup_extend_of_mem hnew
    exact ⟨v, hlookup env, hcaptures.ground _ hv⟩
  · have hx : x ∈ names := (mem_append.mp hx).resolve_right fun hx => hnew ((hcaptures.names x).mpr hx)
    obtain ⟨v, hv, hwithin, hground⟩ := h x hx
    refine ⟨v, ?_, hle.within hwithin, hground.extendedBy hs hwithin hle⟩
    rw [Env.lookup_extend_of_not_mem hnew, hv]

/-- What comes of matching, beginning in an environment: the machine is to do `yes` in the environment that is left, or
`failed` in one in which only names of the pattern have been captured. -/
inductive Branches (yes failed : Stmt) (rest : Stack) (env : Env) (names : List Ident) (τ : Session) :
    Option Env → Prop where
  | matched {env' : Env} (hstack : τ.stack = rest.push yes env')
      (henv : ∀ x ∉ names, env'.lookup x = env.lookup x) : Branches yes failed rest env names τ (some env')
  | failed {env'} (hstack : τ.stack = rest.push failed env')
      (henv : ∀ x ∉ names, env'.lookup x = env.lookup x) : Branches yes failed rest env names τ none

theorem Branches.after (h : Branches yes failed rest env names τ result)
    (henv : ∀ x ∉ names', x ∉ names ∧ env.lookup x = env₀.lookup x) :
  Branches yes failed rest env₀ names' τ result
  := by
  cases h with
  | matched hstack h => exact .matched hstack fun x hx => (h x (henv x hx).1).trans (henv x hx).2
  | failed hstack h => exact .failed hstack fun x hx => (h x (henv x hx).1).trans (henv x hx).2

theorem feature?_isSome {f : FeaturePattern} (hs : s.WellFormed) (henv₀ : env₀.Within s)
    (hle : s.ExtendedBy t) (hf : (f.feature? s env₀).isSome)
    (hsame : ∀ x, f = .escaped x → env.lookup x = env₀.lookup x) :
  (f.feature? t env).isSome
  := by
  have hf := Exec.feature?_extendedBy hs henv₀ hle hf
  cases f with
  | lit => exact hf
  | escaped x =>
    rw [FeaturePattern.feature?, Store.featureOf?] at hf ⊢
    rwa [hsame x rfl]

/-- A lowered pattern is matched, first its root and then its children, one after the other.  If it has no children and
does not match, nothing has been captured. -/
theorem QuietlySince.lowered {children : List ChildPattern} (hσ : σ₀.Undisturbed σ) (hconsistent : σ.Consistent)
    (hstack : σ.stack = rest.push (matchThen arg root children yes failed) env)
    (harg : ∀ υ, (Exec.operand env arg).Returns υ v υ) (hv : v.Within σ.store)
    (hground : σ.store.Ground v)
    (hbinds : env.Binds (matchThen arg root children yes failed).occurrences)
    (hroot : ∀ q, root = .record q → ∀ f ∈ q.exacts, (f.feature? σ.store env).isSome)
    (hknown : GroundNames σ.store env known) (hargs : ArgsKnown (known ++ root.captures) children)
    (hs : s.WellFormed) (henv₀ : env₀.Within s) (hle : s.ExtendedBy σ.store)
    (hsame : ∀ x ∉ known, env.lookup x = env₀.lookup x) (houter : FeaturesOuter (known ++ root.captures) children)
    (hfeatures : ∀ child ∈ children, ∀ f ∈ child.pattern.exacts, (f.feature? s env₀).isSome) :
  QuietlySince σ₀ σ (fun τ => ∃ result,
    (Exec.matchLowered env v root children).Returns σ result (σ.withStore τ.store) ∧
      Branches yes failed rest env (loweredCaptures root children) τ result ∧
      (children = [] → result = none → τ.stack = rest.push failed env))
  := by
  induction children generalizing σ env known root arg v
  all_goals
    obtain ⟨hnames, -⟩ := Env.Binds.append.mp hbinds
    obtain ⟨hpinned, hyes⟩ := Env.Binds.append.mp hnames
    have hp : Prepared σ.store env root := ⟨(Env.Binds.append.mp hpinned).2, hroot⟩
    refine QuietlySince.cases hσ hconsistent hstack harg hv hground hp ?_ ?_
    rotate_left
    · rintro t hmatch hadds τ rfl -
      exact .done (hσ.moved hadds _ _)
        ⟨none, hmatch.bind (Exec.returns_pure _ _), .failed rfl fun _ _ => rfl, fun _ _ => rfl⟩
    rintro captures t hmatch hcaptured hadds τ rfl hgoes
    have hextend {x : Ident} (hx : x ∉ root.captures) : (env.extend captures).lookup x = env.lookup x :=
      Env.lookup_extend_of_not_mem fun hmem => hx ((hcaptured.names x).mp hmem)
  case nil =>
    exact .done (hσ.moved hadds _ _) ⟨_, hmatch.bind (Exec.returns_pure _ _),
      .matched rfl fun x hx => hextend fun h => hx (mem_append_left _ h), nofun⟩
  -- the statement for the children is the one for a lowered pattern with the first child as its root
  case cons child children ih =>
    obtain ⟨hfeature, hfeatures⟩ := forall_mem_cons.mp hfeatures
    obtain ⟨hτ, hτle⟩ := hgoes.consistent hconsistent
    have hknown := hknown.extend hconsistent.store.wellFormed hτle.extendedBy hcaptured
    obtain ⟨w, hw, hwithin, hground⟩ := hknown child.arg hargs.1
    have hsame (x : Ident) (hx : x ∉ known ++ root.captures) : (env.extend captures).lookup x = env₀.lookup x := by
      rw [mem_append, not_or] at hx
      rw [hextend hx.2, hsame x hx.1]
    have hoperand (υ : Session) := Exec.returns_operand hw υ
    have hchild : ∀ f ∈ child.pattern.exacts, (f.feature? t (env.extend captures)).isSome := by
      intro f hf
      refine feature?_isSome hs henv₀ (hle.trans hτle.extendedBy) (hfeature f hf) ?_
      rintro x rfl
      exact hsame x (houter.1 x hf)
    have hargs := hargs.2
    rw [child.pattern.captured_uses_eq] at hargs
    have hrest := ih (hσ.moved hadds _ _) hτ rfl hoperand hwithin hground
      (hyes.extend fun x hx => (hcaptured.names x).mpr hx) (fun _ h => by cases h; exact hchild) hknown hargs
      (hle.trans hτle.extendedBy) hsame houter.2 hfeatures
    refine hrest.bind fun υ _ hυ ⟨result, hreturns, hbranches, _⟩ => .done hυ ⟨result, ?_, ?_, nofun⟩
    · have hreturns : (Exec.matchChildren (env.extend captures) (child :: children)).Returns _ result _ :=
        (hoperand _).bind hreturns
      exact hmatch.bind (hreturns.reframe (Exec.staged_matchChildren _ _).blind σ.stack σ.steps)
    · refine hbranches.after fun x hx => ?_
      rw [loweredCaptures, mem_append, not_or] at hx
      exact ⟨hx.2, hextend hx.1⟩

end Session

end ActorLang
