import ActorLang.Proofs.Control.Clauses

/-!
# The first clause that matches

Clauses are tried in order.  The machine comes to the body of the first clause whose pattern matches
the value and whose guard is true, or to the fallback.  On its way it evaluates guards, and does
nothing else that anybody could notice.  `Trial.Takes` says this without mentioning how the clauses
were lowered.
-/

namespace ActorLang

open Kernel (Ident Operand Stmt FeaturePattern RecordPattern resultIdent)
open List
open Lowering Control

/-! ### What is to happen -/

/-- A name that has nothing to do with what is lowered from here on: it is not generated, and is no parameter of a
procedure for what is left. -/
def Lowering.Context.Foreign (c : Context) (x : Ident) : Prop := x ≠ resultIdent ∧ c.Spares x

/-- Two targets that stand for the same variable, each in its environment. -/
inductive SameTarget (env env' : Env) : Target → Target → Prop where
  | discard : SameTarget env env' .discard .discard
  | ident {x y} (h : env'.lookup y = env.lookup x) : SameTarget env env' (.ident x) (.ident y)

/-- A guard, and what depends on it. -/
structure Guarded where
  operand : Operand
  setup : Setup
  body : Stmt
  failed : Stmt

def Guarded.test (g : Guarded) : Stmt := .ifElse g.operand g.body g.failed

/-- A guard and a body are lowered. -/
def guardedInto (guard : Expr) (body : Block) (failed : Stmt) (target : Target) : Lower Guarded := do
  let (operand, setup) ← (ofExpr guard).operand
  let body ← body.into target
  return ⟨operand, setup, body, failed⟩

/-- Where clauses are tried: they have been lowered in a context, with a fallback, for an argument and a target, and are
executed in an environment, where the argument has a value, on top of the rest of the stack. -/
structure Trial where
  context : Context
  fallback : Fallback
  arg : Operand
  target : Target
  env : Env
  value : Value
  rest : Stack

namespace Trial

/-- The machine is to execute the statement, which delivers to the target of the trial.  The captured names stand for
what they do in the inner environment, and others for what they do in that of the trial. -/
structure Places (S : Trial) (s : Stmt) (env : Env) (t : Target) (names : List Ident) (inner : Env) (τ : Session) :
    Prop where
  stack : τ.stack = S.rest.push s env
  target : SameTarget S.env env S.target t
  inside : ∀ x ∈ names, env.lookup x = inner.lookup x
  outside : ∀ x ∈ s.free, S.context.Foreign x → x ∉ names → env.lookup x = S.env.lookup x

def Enters (S : Trial) (into : Target → Lower Stmt) (names : List Ident) (inner : Env) (τ : Session) : Prop :=
  ∃ s env t d d', S.context.Inside d ∧ into t d = .ok (s, d') ∧ S.Places s env t names inner τ

/-- The machine is to evaluate the guard.  Whatever happens, if it then has a truth value, the machine comes to the body
or to something else. -/
def Guards (S : Trial) (guard : Expr) (body : Block) (names : List Ident) (inner : Env) (otherwise : Session → Prop)
    (τ : Session) : Prop :=
  ∃ g env t d d', S.context.Inside d ∧ guardedInto guard body g.failed t d = .ok (g, d') ∧
    S.Places (g.setup.finish g.test) env t names inner τ ∧
    ∀ υ (vars : List (Ident × VarId)) b, Relation.ReflTransGen Session.Happens τ υ → vars.map (·.1) = g.setup.temps →
      υ.stack = .stmt g.test (env.extend vars) :: S.rest →
      (Exec.determinedOperand (env.extend vars) g.operand).Returns υ (.scalar (.lit (.bool b))) υ →
      υ.Quietly fun φ => if b then S.Enters body.into names inner φ else otherwise φ

/-- The value is matched with a lowered pattern.  If no child of it reads a name captured before, the result is what the
pattern as written matches where the clauses are tried. -/
structure Tests (S : Trial) (p : Pattern) (root : Kernel.Pattern) (children : List ChildPattern) (env : Env)
    (υ : Session) (t : Store) (result : Option Env) : Prop where
  lowered : ∃ d d', p.lower d = .ok ((root, children), d')
  outside : ∀ x ∈ outerNames root children, env.lookup x = S.env.lookup x
  returns : (Exec.matchLowered env S.value root children).Returns υ result (υ.withStore t)
  meaning : (captured p.uses).Nodup → Exec.ReadsOuter root.captures children →
    Exec.Readable υ.store S.env p.uses →
    Option.Rel (Exec.Binds υ.store t env (captured p.uses)) result (p.match? υ.store S.env S.value)

/-- Between two sessions, the machine has matched the value with a pattern. -/
def Decides (S : Trial) (p : Pattern) (σ τ : Session) (result : Option Env) : Prop :=
  ∃ root children env υ, σ.Undisturbed υ ∧ S.Tests p root children env υ τ.store result

/-- The machine is to do what comes after the pattern of a clause. -/
def Follows (S : Trial) (guard : Option Expr) (body : List Expr) (names : List Ident) (inner : Env)
    (otherwise : Session → Prop) (τ : Session) : Prop :=
  match guard with
  | none => S.Enters (block body (ofList body)).into names inner τ
  | some guard => S.Guards guard (block body (ofList body)) names inner otherwise τ

/-- The machine tries the clauses: it matches the value with the pattern of the first clause.  If
that fails it tries the others, if not it evaluates the guard, and comes to the body, or tries the
others if the guard is false.  If there is no clause it comes to the fallback. -/
def Takes (S : Trial) : List Clause → Session → Prop
  | [], σ => S.Enters S.fallback.into [] S.env σ
  | .mk p guard body :: more, σ => σ.Quietly fun τ =>
    (S.Decides p σ τ none ∧ S.Takes more τ) ∨
    ∃ env, S.Decides p σ τ (some env) ∧ S.Follows guard body (captured p.uses) env (S.Takes more) τ

end Trial

/-! ### Clauses that can be tried -/

/-- The clause is one that can be read. -/
structure Clause.Proper (clause : Clause) : Prop where
  pattern : clause.pattern.Proper
  guard : ∀ e ∈ clause.guard, e.Proper
  body : ∀ e ∈ clause.body, e.Proper

theorem Clause.Proper.disciplined {p : Pattern} {guard : Option Expr} {body : List Expr}
    (h : (Clause.mk p guard body).Proper) :
  DisciplinedAlternative (Clause.mk p guard body).free ⟨p, ofOption guard, block body (ofList body)⟩
  := disciplined_clause h.pattern (fun e he => sane_of_proper (h.guard e he))
    (fun e he => sane_of_proper (h.body e he)) (Subset.refl _)

namespace Trial

/-- The value of the argument is ground.  The names that are labels or features of patterns are bound to such, and a
pattern does not capture such a name before it is used. -/
structure Ready (S : Trial) (clauses : List Clause) (s : Store) : Prop where
  foreign : ∀ x ∈ S.arg.idents, S.context.Foreign x
  value : ∀ υ, (Exec.operand S.env S.arg).Returns υ S.value υ
  within : S.value.Within s
  ground : s.Ground S.value
  proper : ∀ clause ∈ clauses, clause.Proper
  features : ∀ clause ∈ clauses, ∀ x, .exact x ∈ clause.pattern.uses → (s.featureOf? S.env x).isSome
  outer : ∀ clause ∈ clauses, ∀ d d' root children, clause.pattern.lower d = .ok ((root, children), d') →
    FeaturesOuter root.captures children

theorem Ready.tail {S : Trial} {clause : Clause} {more : List Clause} {s : Store} (h : S.Ready (clause :: more) s) :
  S.Ready more s where
  foreign := h.foreign
  value := h.value
  within := h.within
  ground := h.ground
  proper := (forall_mem_cons.mp h.proper).2
  features := (forall_mem_cons.mp h.features).2
  outer := (forall_mem_cons.mp h.outer).2

end Trial

variable {s case failed no : Stmt} {env env' bindings inner : Env} {x : Ident} {τ : Session}
  {d c' c : Context} {vars : List VarId} {v : VarId} {clauses more : List Clause}
  {guard : Option Expr} {body : List Expr} {p : Pattern}

theorem SameTarget.congr {env₁ env₂ : Env} {t₀ t : Target} (h : SameTarget env env₁ t₀ t)
    (hsame : ∀ x ∈ targetNames t, env₂.lookup x = env₁.lookup x) :
  SameTarget env env₂ t₀ t
  := by
  cases h with
  | discard => exact .discard
  | @ident x y h => exact .ident ((hsame y (mem_singleton_self y)).trans h)

theorem Lowering.Context.foreign_of_written (c : Context) (hx : Written x) :
  c.Foreign x
  := by
  refine ⟨?_, c.spares_of_written hx⟩
  rintro rfl
  exact absurd hx (by decide)

theorem Session.consistent_of_happens {σ : Session} (h : Relation.ReflTransGen Happens σ τ)
    (hσ : σ.Consistent) :
  τ.Consistent ∧ τ.store.Outlives σ.store
  := by
  induction h with
  | refl => exact ⟨hσ, .refl _⟩
  | tail _ hhappens ih =>
    obtain ⟨hτ, hle⟩ := hhappens.consistent ih.1
    exact ⟨hτ, ih.2.trans hle⟩

namespace Trial

variable {S : Trial} {t : Target} {σ σ₀ : Session}

/-- A statement of the trial, where it is executed: outside of what has been captured and generated, its environment is
that of the trial. -/
structure Stands (S : Trial) (t : Target) (c : Context) (s : Stmt) (env : Env) : Prop where
  numbered : Numbered c
  inside : S.context.Inside c
  target : SameTarget S.env env S.target t
  system : ∀ x ∈ targetNames t, ¬ Written x ∧ c.Spares x
  names : ∀ x ∈ s.occurrences, S.context.Foreign x → env.lookup x = S.env.lookup x
  binds : env.Binds s.occurrences

/-- What happens where a clause fails: if nothing has happened to the names that are not bound on the way, the machine
goes on with the others. -/
def Falls (S : Trial) (more : List Clause) (failed : Stmt) (env : Env) (bound : List Ident) (once : Prop)
    (σ : Session) : Prop :=
  ∀ υ₀ υ env', υ₀.Undisturbed υ → υ.Consistent → υ.store.Outlives σ.store →
    υ.stack = S.rest.push failed env' → (∀ x ∉ bound, env'.lookup x = env.lookup x) →
    (once → υ.stack = S.rest.push failed env) →
    Session.QuietlySince υ₀ υ fun φ => S.Takes more φ ∧ φ.store = υ.store

section Attempt

variable {gap : Nat} {a : Attempted ⟨p, ofOption guard, block body (ofList body)⟩ t c gap}

theorem Stands.spares (h : S.Stands t c s env) (hx : S.context.Foreign x) :
  c.Spares x
  := fun n hn => hx.2 n (Nat.le_trans h.inside.next hn)

theorem Stands.target_not_bound (h : S.Stands t c s env) (hp : p.Proper) :
  ∀ x ∈ targetNames t, x ∉ a.bound
  := by
  intro x hx hbound
  obtain ⟨hwritten, hspares⟩ := h.system x hx
  rcases a.mem_bound hbound with hcaptured | hgenerated
  · exact hwritten (written_captured hp x hcaptured)
  · exact hgenerated hspares

section

variable (h : S.Stands t c (a.stmt S.arg failed) env) (hp : p.Proper)

include h hp

theorem Stands.places (hstack : τ.stack = S.rest.push s env')
    (hs : ∀ x ∈ s.occurrences, x ∉ a.bound → x ∈ (a.guarded failed).occurrences)
    (hinside : ∀ x ∈ captured p.uses, env'.lookup x = inner.lookup x)
    (houtside : ∀ x ∉ a.bound, env'.lookup x = env.lookup x) :
  S.Places s env' t (captured p.uses) inner τ where
  stack := hstack
  target := h.target.congr fun x hx => houtside x (h.target_not_bound hp x hx)
  inside := hinside
  outside x hx hforeign hnot := by
    have hbound : x ∉ a.bound :=
      fun hbound => (a.mem_bound hbound).elim hnot fun hgenerated => hgenerated (h.spares hforeign)
    rw [houtside x hbound]
    apply h.names x _ hforeign
    exact mem_matchThen S.arg (hs x (mem_eraseDups.mp hx) hbound) fun hmem =>
      hbound (mem_append_left _ hmem)

theorem Stands.outside :
  ∀ x ∈ outerNames a.root a.children, env.lookup x = S.env.lookup x
  := by
  intro x hx
  apply h.names x (outerNames_subset _ _ _ _ _ hx)
  exact S.context.foreign_of_written (written_namesRead hp x (outerNames_subset_namesRead a.lower hx))

theorem Stands.features {s : Store} (hfeatures : ∀ x, .exact x ∈ p.uses → (s.featureOf? S.env x).isSome)
    (houter : FeaturesOuter a.root.captures a.children) (hs : s.WellFormed) (henv : S.env.Within s)
    (hle : s.ExtendedBy σ.store) {q : RecordPattern}
    (hq : a.root = .record q ∨ ∃ child ∈ a.children, child.pattern = q) :
  ∀ f ∈ q.exacts, (f.feature? σ.store env).isSome
  := by
  intro f hf
  refine Session.feature?_isSome hs henv hle (isSome_feature?_lower a.lower hfeatures hq hf) ?_
  rintro x rfl
  exact h.outside hp x (exact_mem_outerNames houter hq hf)

theorem Stands.tests (hs : σ.store.WellFormed) (hv : S.value.Within σ.store)
    (hground : σ.store.Ground S.value) {u : Store} {result : Option Env}
    (hreturns : (Exec.matchLowered env S.value a.root a.children).Returns σ result (σ.withStore u)) :
  S.Tests p a.root a.children env σ u result where
  lowered := ⟨_, _, a.lower⟩
  outside := h.outside hp
  returns := hreturns
  meaning hnodup houter hreads := Exec.rel_match?_of_returns a.lower (written_captured hp) hnodup houter hs hv
    hground (h.outside hp) hreads hreturns

end

theorem Stands.guards {guard : Expr} {a : Attempted ⟨p, ofOption (some guard), block body (ofList body)⟩ t c gap}
    (h : S.Stands t c (a.stmt S.arg failed) env) (hclause : (Clause.mk p (some guard) body).Proper)
    (hτ : τ.Consistent) (hle : τ.store.Outlives σ.store)
    (hstack : τ.stack = S.rest.push (a.guarded failed) env')
    (henv : ∀ x ∉ loweredCaptures a.root a.children, env'.lookup x = env.lookup x)
    (hfalls : S.Falls more failed env a.bound False σ) :
  S.Guards guard (block body (ofList body)) (captured p.uses) env' (S.Takes more) τ
  := by
  have hp := hclause.pattern
  obtain ⟨⟨⟩, -⟩ | ⟨_, operand, ⟨⟩, hguard, hoperand⟩ := optionalOperand_eq_ok a.operand
  have hguarded : a.guarded failed = a.setup.finish (.ifElse operand a.body failed) := by
    rw [Attempted.guarded, hguard, guardThen]
  have hplaces : S.Places (a.guarded failed) env' t (captured p.uses) env' τ :=
    h.places hp hstack (fun x hx _ => hx) (fun _ _ => rfl) fun x hx =>
      henv x fun hmem => hx (mem_append_left _ hmem)
  rw [hguarded] at hplaces
  have hlowered : guardedInto guard (block body (ofList body)) failed t
      { a.afterPattern with next := a.afterPattern.next + gap } =
      .ok (⟨operand, a.setup, a.body, failed⟩, a.after) :=
    bind_eq_ok_iff.mpr ⟨_, _, hoperand, bind_eq_ok_iff.mpr ⟨_, _, a.into, rfl⟩⟩
  refine ⟨⟨operand, a.setup, a.body, failed⟩, env', t, _, _, h.inside.advances (a.advances_pattern h.numbered),
    hlowered, hplaces, ?_⟩
  -- the guard may have done anything, but its temporary is all that has come into scope
  intro υ vars b hhappens hvars hstack hreturns
  obtain ⟨hυ, hυle⟩ := Session.consistent_of_happens hhappens hτ
  have houtside : ∀ x ∉ a.bound, (env'.extend vars).lookup x = env.lookup x := by
    intro x hx
    rw [Attempted.bound, mem_append, not_or, ← hvars] at hx
    rw [Env.lookup_extend_of_not_mem hx.2, henv x hx.1]
  have hpopped : (Exec.determinedOperand (env'.extend vars) operand).Returns (υ.popped S.rest)
      (.scalar (.lit (.bool b))) ((υ.popped S.rest).withStore υ.store) :=
    hreturns.reframe (Exec.staged_determinedOperand _ _).blind S.rest (υ.steps + 1)
  have hrun : (Exec.stmt (env'.extend vars) (.ifElse operand a.body failed)).Returns (υ.popped S.rest)
      (.enter (bif b then a.body else failed) (env'.extend vars)) ((υ.popped S.rest).withStore υ.store) := by
    apply hpopped.bind
    cases b <;> exact Exec.returns_pure _ _
  cases b with
  | true =>
    refine .step (.refl υ) hstack hrun rfl fun _ => .done ((Session.Undisturbed.refl υ).moved (.refl _) _ _) ?_
    refine ⟨a.body, env'.extend vars, t, _, _, h.inside.advances (a.advances_guard h.numbered hclause.disciplined),
      a.into, h.places hp rfl ?_ ?_ houtside⟩
    · exact fun x hx hnot => a.mem_guarded hx fun hmem => hnot (mem_append_right _ hmem)
    · intro x hx
      apply Env.lookup_extend_of_not_mem
      rw [hvars]
      intro hmem
      have hwritten := written_captured hp x hx
      rw [a.temps x hmem] at hwritten
      exact not_written_tempName _ hwritten
  | false =>
    refine .step (.refl υ) hstack hrun rfl fun hgoes => ?_
    obtain ⟨hφ, hφle⟩ := hgoes.consistent hυ
    refine (hfalls υ _ _ ((Session.Undisturbed.refl υ).moved (.refl _) _ _) hφ ((hle.trans hυle).trans hφle) rfl
      houtside False.elim).bind fun φ _ hφ htakes => .done hφ htakes.1

theorem Stands.clause {s : Store} (h : S.Stands t c (a.stmt S.arg failed) env)
    (hready : S.Ready (.mk p guard body :: more) s) (hs : s.WellFormed) (henv : S.env.Within s)
    (hle : s.ExtendedBy σ.store) (hσ : σ₀.Undisturbed σ) (hconsistent : σ.Consistent)
    (hstack : σ.stack = S.rest.push (a.stmt S.arg failed) env)
    (hfalls : S.Falls more failed env a.bound (a.children = [] ∧ guard = none) σ) :
  Session.QuietlySince σ₀ σ (fun τ => (S.Decides p σ₀ τ none ∧ S.Takes more τ) ∨
    ∃ env, S.Decides p σ₀ τ (some env) ∧ S.Follows guard body (captured p.uses) env (S.Takes more) τ)
  := by
  have hclause := hready.proper _ mem_cons_self
  have hp : p.Proper := hclause.pattern
  have hfeatures := hready.features _ mem_cons_self
  have houter := hready.outer _ mem_cons_self _ _ _ _ a.lower
  have hv := hle.within hready.within
  have hground := hready.ground.extendedBy hs hready.within hle
  have harg (υ : Session) : (Exec.operand env S.arg).Returns υ S.value υ := by
    rw [Exec.operand_congr fun x hx =>
      h.names x (mem_append_left _ (mem_append_left _ (mem_append_left _ hx))) (hready.foreign x hx)]
    exact hready.value υ
  have hargs := argsKnown_lower a.lower
  rw [Kernel.Pattern.captured_uses_eq] at hargs
  have hwithin : env.Within σ.store := by
    refine hconsistent.stack (.stmt (a.stmt S.arg failed) env) ?_
    rw [hstack]
    exact mem_cons_self
  have hnone : Session.GroundNames σ.store env [] := forall_mem_nil _
  refine (Session.QuietlySince.lowered hσ hconsistent hstack harg hv hground h.binds ?_ hnone hargs
    hconsistent.store.wellFormed hwithin (.refl _) (fun _ _ => rfl) houter ?_).bind ?_
  · exact fun q hq => h.features hp hfeatures houter hs henv hle (.inl hq)
  · exact fun child hchild => h.features hp hfeatures houter hs henv hle (.inr ⟨child, hchild, rfl⟩)
  rintro τ hgoes hτ ⟨result, hreturns, hbranches, honce⟩
  obtain ⟨hconsistent', hτle⟩ := hgoes.consistent hconsistent
  have hdecides {φ : Session} (hφ : φ.store = τ.store) : S.Decides p σ₀ φ result :=
    ⟨_, _, env, σ, hσ, h.tests hp hconsistent.store.wellFormed hv hground (hφ ▸ hreturns)⟩
  cases hbranches with
  | failed hstack hsame =>
    refine (hfalls σ₀ τ _ hτ hconsistent' hτle hstack ?_ ?_).bind fun φ _ hφ htakes =>
      .done hφ (.inl ⟨hdecides htakes.2, htakes.1⟩)
    · exact fun x hx => hsame x fun hmem => hx (mem_append_left _ hmem)
    · exact fun hnone => honce hnone.1 rfl
  | @matched env' hstack hsame =>
    refine .done hτ (.inr ⟨env', hdecides rfl, ?_⟩)
    cases guard with
    | none =>
      obtain ⟨-, hguard, -⟩ | ⟨_, _, ⟨⟩, -⟩ := optionalOperand_eq_ok a.operand
      have hguarded : a.guarded failed = a.body := by
        rw [Attempted.guarded, hguard, guardThen]
      rw [hguarded] at hstack
      refine ⟨a.body, env', t, _, _, h.inside.advances (a.advances_guard h.numbered hclause.disciplined), a.into,
        h.places hp hstack ?_ (fun _ _ => rfl) ?_⟩
      · exact fun x hx _ => hguarded ▸ hx
      · exact fun x hx => hsame x fun hmem => hx (mem_append_left _ hmem)
    | some =>
      refine h.guards hclause hconsistent' hτle hstack hsame ?_
      exact fun υ₀ υ env' hυ hυc hle hstack henv _ => hfalls υ₀ υ env' hυ hυc hle hstack henv (by simp)

theorem Stands.falls_last (h : S.Stands t c (a.stmt S.arg failed) env) (hclause : (Clause.mk p guard body).Proper)
    (hfailed : S.fallback.into t a.after = .ok (failed, d)) (honce : failed = .skip ∨ a.children = [] ∧ guard = none) :
  S.Falls [] failed env a.bound (a.children = [] ∧ guard = none) σ
  := by
  have hfalls {env' : Env} {υ₀ υ : Session} (hυ : υ₀.Undisturbed υ) (hstack : υ.stack = S.rest.push failed env')
      (henv : ∀ x ∉ a.bound, env'.lookup x = env.lookup x)
      (hnames : ∀ x ∈ failed.occurrences, S.context.Foreign x → env'.lookup x = S.env.lookup x) :
      Session.QuietlySince υ₀ υ fun φ => S.Takes [] φ ∧ φ.store = υ.store := by
    have htarget := h.target.congr fun x hx => henv x (h.target_not_bound hclause.pattern x hx)
    have hinside := h.inside.advances (a.advances h.numbered hclause.disciplined fun x hx => (h.system x hx).2)
    refine .done hυ ⟨⟨failed, env', t, _, _, hinside, hfailed, hstack, htarget, forall_mem_nil _, ?_⟩, rfl⟩
    exact fun x hx hforeign _ => hnames x (mem_eraseDups.mp hx) hforeign
  intro _ _ _ hυ _ _ hstack henv hwhere
  rcases honce with rfl | honce
  · exact hfalls hυ hstack henv (forall_mem_nil _)
  · refine hfalls hυ (hwhere honce) (fun _ _ => rfl) fun x hx hforeign => h.names x ?_ hforeign
    exact mem_append_right _ hx

end Attempt

/-! ### What is left -/

theorem lookup_applied {params : List Ident} (hx : x ∈ bindings.map (·.1)) (hparam : x ∉ params) :
  ∃ v, (x, v) ∈ bindings ∧ (Env.extend [] (bindings ++ params.zip vars)).lookup x = some v
  := by
  have hmem : x ∈ (bindings ++ params.zip vars).map (·.1) := by
    rw [map_append]
    exact mem_append_left _ hx
  obtain ⟨v, hv, hlookup⟩ := Env.lookup_extend_of_mem hmem
  refine ⟨v, (mem_append.mp hv).resolve_right fun hzip => hparam (of_mem_zip hzip).1, hlookup []⟩

theorem targetNames_leftTarget (t : Target) :
  ∀ x ∈ targetNames (leftTarget t), x = resultIdent
  := by
  cases t with
  | ident => exact forall_mem_singleton.mpr rfl
  | discard => exact forall_mem_nil _

theorem Stands.left {no : Stmt} (h : S.Stands t c s env) (hd : Numbered d) (hinside : S.context.Inside d)
    (hnames : bindings.map (·.1) = Stmt.captured (targetNames (leftTarget t)) no)
    (hbindings : ∀ b ∈ bindings, env.lookup b.1 = some b.2)
    (hvars : Forall₂ (fun x v => env.lookup x = some v) (targetNames t) vars)
    (hno : ∀ x ∈ no.occurrences, S.context.Foreign x → env.lookup x = S.env.lookup x) :
  S.Stands (leftTarget t) d no (Env.extend [] (bindings ++ (targetNames (leftTarget t)).zip vars))
  := by
  have hcaptured {x : Ident} (hx : x ∈ no.occurrences) (hparam : x ∉ targetNames (leftTarget t)) :
      ∃ v, env.lookup x = some v ∧
        (Env.extend [] (bindings ++ (targetNames (leftTarget t)).zip vars)).lookup x = some v := by
    have hmem : x ∈ bindings.map (·.1) := by
      rw [hnames]
      exact mem_eraseDups.mpr (mem_filter.mpr ⟨hx, by simpa using hparam⟩)
    obtain ⟨v, hv, hlookup⟩ := lookup_applied hmem hparam
    exact ⟨v, hbindings _ hv, hlookup⟩
  have hresult (v : VarId) : (Env.extend [] (bindings ++ [(resultIdent, v)])).lookup resultIdent = some v := by
    simp [Env.extend]
  constructor
  case numbered => exact hd
  case inside => exact hinside
  case target =>
      have htarget := h.target
      generalize S.target = outer at htarget ⊢
      cases htarget with
      | discard => exact .discard
      | ident hsame =>
        obtain _ | ⟨hv, -⟩ := hvars
        exact .ident ((hresult _).trans (hv.symm.trans hsame))
  case system =>
      intro x hx
      obtain rfl := targetNames_leftTarget t x hx
      exact ⟨by decide, d.spares_of_second (by decide) (by decide)⟩
  case names =>
      intro x hx hforeign
      obtain ⟨v, hv, hlookup⟩ := hcaptured hx fun hparam => hforeign.1 (targetNames_leftTarget t x hparam)
      rw [hlookup, ← hv, hno x hx hforeign]
  case binds =>
      intro x hx
      by_cases hparam : x ∈ targetNames (leftTarget t)
      · cases t with
        | discard => cases hparam
        | ident =>
          obtain _ | ⟨-, -⟩ := hvars
          cases mem_singleton.mp hparam
          exact Option.isSome_iff_exists.mpr ⟨_, hresult _⟩
      · obtain ⟨v, -, hlookup⟩ := hcaptured hx hparam
        exact Option.isSome_iff_exists.mpr ⟨v, hlookup⟩

theorem exists_vars {names : List Ident} (h : env.Binds names) :
  ∃ vars, Forall₂ (fun x v => env.lookup x = some v) names vars
  := by
  induction names with
  | nil => exact ⟨[], .nil⟩
  | cons x _ ih =>
    obtain ⟨hx, hrest⟩ := forall_mem_cons.mp h
    obtain ⟨v, hv⟩ := Option.isSome_iff_exists.mp hx
    obtain ⟨vars, hvars⟩ := ih hrest
    exact ⟨v :: vars, .cons hv hvars⟩

theorem returns_targetArgs (h : Forall₂ (fun x v => env.lookup x = some v) (targetNames t) vars) (σ : Session) :
  (Exec.operandVars env (targetArgs t)).Returns σ vars σ ∧
    (targetNames (leftTarget t)).length = (targetArgs t).length ∧ vars.length = (targetArgs t).length
  := by
  cases t with
  | discard =>
    cases h
    exact ⟨Exec.returns_pure _ _, rfl, rfl⟩
  | ident =>
    obtain _ | ⟨hv, hnil⟩ := h
    cases hnil
    exact ⟨(Exec.returns_lookup hv σ).bind (Exec.returns_pure _ _), rfl, rfl⟩

section Left

variable {a : Attempted ⟨p, ofOption guard, block body (ofList body)⟩ t c 1}

theorem Stands.falls_more {once : Prop}
    (h : S.Stands t c (a.stmt S.arg (.apply (.ident a.next) (targetArgs t))) env) (hp : p.Proper)
    (hd : Numbered d) (hinside : S.context.Inside d) (hs : σ.store.WellFormed)
    (hnext : env.lookup a.next = some v) (hv : v < σ.store.slots.size)
    (hholds : σ.store.HoldsClosure v ⟨targetNames (leftTarget t), no, bindings⟩)
    (hnames : bindings.map (·.1) = Stmt.captured (targetNames (leftTarget t)) no)
    (hbindings : ∀ b ∈ bindings, env.lookup b.1 = some b.2)
    (hno : ∀ x ∈ no.occurrences, S.context.Foreign x → env.lookup x = S.env.lookup x)
    (hmore : ∀ υ env', υ.Consistent → υ.store.Outlives σ.store →
      υ.stack = S.rest.push no env' → S.Stands (leftTarget t) d no env' → S.Takes more υ) :
  S.Falls more (.apply (.ident a.next) (targetArgs t)) env a.bound once σ
  := by
  intro _ υ env' hυ hconsistent hυle hstack henv _
  have htarget : env.Binds (targetNames t) := by
    intro x hx
    apply h.binds x
    refine mem_append_right _ (mem_cons_of_mem a.next ?_)
    cases t with
    | discard => cases hx
    | ident => exact hx
  obtain ⟨vars, hvars⟩ := exists_vars htarget
  have hvars' : Forall₂ (fun x v => env'.lookup x = some v) (targetNames t) vars := by
    rw [forall₂_iff_zip] at hvars ⊢
    refine ⟨hvars.1, fun hmem => ?_⟩
    rw [henv _ (h.target_not_bound hp _ (of_mem_zip hmem).1), hvars.2 hmem]
  obtain ⟨hargs, hlength, hsame⟩ := returns_targetArgs hvars' (υ.popped S.rest)
  have hrun : (Exec.stmt env' (.apply (.ident a.next) (targetArgs t))).Returns (υ.popped S.rest)
      (.enter no (Env.extend [] (bindings ++ (targetNames (leftTarget t)).zip vars)))
      ((υ.popped S.rest).withStore υ.store) :=
    Exec.returns_applyClosure (σ := υ.popped S.rest) ((henv _ (a.next_not_mem_bound hp)).trans hnext)
      (hholds.outlives hs hv hυle) hlength hargs hsame
  refine .step hυ hstack hrun rfl fun hgoes => ?_
  obtain ⟨hφ, hφle⟩ := hgoes.consistent hconsistent
  refine .done (hυ.moved hυ.store _ _) ⟨hmore _ _ hφ (hυle.trans hφle) rfl ?_, rfl⟩
  exact h.left hd hinside hnames hbindings hvars hno

theorem Stands.lookup_named (h : S.Stands t c (.scope [a.next] s) env)
    (hx : x ∈ s.occurrences) (hforeign : S.context.Foreign x) :
  (env.extend [(a.next, v)]).lookup x = S.env.lookup x
  := by
  have hne : x ≠ a.next := a.ne_next (h.spares hforeign)
  rw [Env.lookup_extend_of_not_mem (by simpa using hne)]
  exact h.names x (mem_filter.mpr ⟨hx, by simpa using hne⟩) hforeign

theorem Stands.named (h : S.Stands t c (.scope [a.next] (.seq [s, case])) env) (v : VarId) :
  S.Stands t c case (env.extend [(a.next, v)]) where
  numbered := h.numbered
  inside := h.inside
  target := by
    refine h.target.congr fun x hx => Env.lookup_extend_of_not_mem ?_
    simpa using a.ne_next (h.system x hx).2
  system := h.system
  names x hx hforeign := h.lookup_named (by simp [Stmt.occurrences, Stmt.listOccurrences, hx]) hforeign
  binds := by
    have hbinds : env.Binds (case.occurrences.filter (! [a.next].contains ·)) := by
      intro x hx
      obtain ⟨hx, hne⟩ := mem_filter.mp hx
      refine h.binds x (mem_filter.mpr ⟨?_, hne⟩)
      simp [Stmt.occurrences, Stmt.listOccurrences, hx]
    exact hbinds.extend (by simp)

end Left

theorem Stands.takes {s₀ : Store} (hs : s₀.WellFormed)
    (henv : clauses ≠ [] → S.env.Within s₀) (hready : S.Ready clauses s₀)
    (hrun : alternatives S.arg S.fallback (ofClauses clauses) t c = .ok (s, c')) (h : S.Stands t c s env)
    (hconsistent : σ.Consistent) (hle : s₀.ExtendedBy σ.store)
    (hstack : σ.stack = S.rest.push s env) :
  S.Takes clauses σ
  := by
  -- what is left stands in the environment of a procedure, so the induction is over clauses wherever they stand
  induction clauses generalizing t c c' s env σ with
  | nil =>
    refine ⟨s, env, t, c, c', h.inside, hrun, hstack, h.target, forall_mem_nil _, fun x hx hforeign _ => ?_⟩
    exact h.names x (mem_eraseDups.mp hx) hforeign
  | cons clause more ih =>
    obtain ⟨p, guard, _⟩ := clause
    have hclause := hready.proper _ mem_cons_self
    have hwithin := henv (cons_ne_nil _ _)
    cases unfolds_alternatives hrun with
    | last a hrest hfailed honce =>
      have hmore : more = [] := by
        cases more with
        | nil => rfl
        | cons clause =>
          obtain ⟨_, _, _⟩ := clause
          cases hrest
      subst hmore
      refine h.clause hready hs hwithin hle (.refl σ) hconsistent hstack (h.falls_last hclause hfailed ?_)
      refine honce.imp_right fun honce => ⟨honce.1, ?_⟩
      cases guard with
      | none => rfl
      | some => cases honce.2
    | @more a no d d' hnext hframes hno =>
      have hd : Numbered d ∧ S.context.Inside d := by
        have hafter := a.advances h.numbered hclause.disciplined fun x hx => (h.system x hx).2
        have hinside := h.inside.advances hafter
        obtain ⟨n, _⟩ := d
        cases hnext
        rcases hframes with hframes | hframes
        · cases hframes
          exact ⟨hafter.numbered, hinside⟩
        · cases hframes
          exact ⟨hafter.numbered.enter rfl (forall_mem_nil _), hinside.shadow⟩
      have hleft {x : Ident} (hx : x ∈ no.occurrences) (hparam : x ∉ targetNames (leftTarget t)) :
          x ∈ (Stmt.seq [.createProc (targetNames (leftTarget t)) no a.next,
            a.stmt S.arg (.apply (.ident a.next) (targetArgs t))]).occurrences := by
        simp [Stmt.occurrences, Stmt.listOccurrences, hx, hparam]
      refine Session.QuietlySince.define (.refl σ) hstack ?_ ?_
      · intro x hx
        obtain ⟨hx, hne⟩ := mem_filter.mp hx
        obtain ⟨hx, hparam⟩ := mem_filter.mp (mem_eraseDups.mp hx)
        exact h.binds x (mem_filter.mpr ⟨hleft hx (by simpa using hparam), by simpa using hne⟩)
      -- the procedure has been created, and the first clause is tried
      rintro _ hnames hbindings _ rfl hgoes
      obtain ⟨hτ, hτle⟩ := hgoes.consistent hconsistent
      have hstands := h.named σ.store.slots.size
      refine hstands.clause hready hs hwithin (hle.trans hτle.extendedBy)
        ((Session.Undisturbed.refl σ).moved (Store.adds_withProcedure _ _) _ _) hτ rfl ?_
      refine hstands.falls_more hclause.pattern hd.1 hd.2 hτ.store.wellFormed (by simp [Env.extend])
        (by simp [Store.withProcedure]) (Store.holdsClosure_withProcedure _ _) hnames hbindings ?_ ?_
      · refine fun x hx hforeign => h.lookup_named (hleft hx fun hparam => hforeign.1 ?_) hforeign
        exact targetNames_leftTarget t x hparam
      · exact fun υ env' hυ hυle hstack hstands => ih (fun _ => hwithin) hready.tail hno hstands hυ
          ((hle.trans hτle.extendedBy).trans hυle.extendedBy) hstack

/-- Clauses are lowered in some context, for a target that no program can name and that is not generated again, and the
machine is to execute what they are lowered to.  It then takes the first clause that matches. -/
theorem first_match {clauses : List Clause} {s : Stmt} {c' : Context} {σ : Session}
    (hrun : alternatives S.arg S.fallback (ofClauses clauses) S.target S.context = .ok (s, c'))
    (hcontext : Numbered S.context) (htarget : ∀ x ∈ targetNames S.target, ¬ Written x ∧ S.context.Spares x)
    (hready : S.Ready clauses σ.store) (hσ : σ.Consistent)
    (hstack : σ.stack = S.rest.push s S.env) (hbinds : S.env.Binds s.free) :
  S.Takes clauses σ
  := by
  have hsame : SameTarget S.env S.env S.target S.target := by
    cases S.target with
    | discard => exact .discard
    | ident => exact .ident rfl
  have hstands : S.Stands S.target S.context s S.env :=
    ⟨hcontext, .refl _, hsame, htarget, fun _ _ _ => rfl, fun x hx => hbinds x (mem_eraseDups.mpr hx)⟩
  have henv : clauses ≠ [] → S.env.Within σ.store := by
    intro hne
    obtain ⟨⟨p, _, _⟩, _, rfl⟩ := exists_cons_of_ne_nil hne
    refine hσ.stack (.stmt s S.env) ?_
    rw [hstack]
    cases unfolds_alternatives hrun <;> exact mem_cons_self
  exact hstands.takes hσ.store.wellFormed henv hready hrun hσ (.refl _) hstack

/-! ### A pair -/

/-- A store with the value `[7, [7]]`, and variables for its inner part, for `x` and for the result. -/
def pairStore : Store where
  slots := #[.bound (.record 0), .bound (.record 1), .bound (.scalar (.lit (.int32 5))), .unbound]
  records := #[.tuple none [.lit (.int32 7), .var 1], .tuple none [.lit (.int32 7)]]

/-- The trial of clauses for the pair, with a fallback that gives `'none'`. -/
def pairTrial : Trial where
  context := {}
  fallback := .block ⟨[], [atom (.lit (.str "none"))]⟩
  arg := .ident "v"
  target := .ident Kernel.programResult
  env := [("v", 0), ("x", 2), (Kernel.programResult, 3)]
  value := .var 0
  rest := []

/-- The pattern `[name, [inner]]`. -/
def nested (name : Ident) (inner : PatternForm) : Pattern :=
  .mk default (.tuple none [.mk default (.ident name), .mk default (.tuple none [.mk default inner] false)] false)

/-- The clauses `of [a, [~x]] then 'first' of [a, [b]] if a == x then 'second' of [a, rest] then a`. -/
def pairClauses : List Clause :=
  [.mk (nested "a" (.escaped "x")) none [.mk default (.lit (.str "first"))], .mk (nested "a" (.ident "b"))
     (some (.mk default (.binary .equals (.mk default (.ident "a")) (.mk default (.ident "x")))))
     [.mk default (.lit (.str "second"))],
   .mk (.mk default (.tuple none [.mk default (.ident "a"), .mk default (.ident "rest")] false)) none
     [.mk default (.ident "a")]]

def pairStmt (clauses : List Clause) : Stmt :=
  match alternatives pairTrial.arg pairTrial.fallback (ofClauses clauses) pairTrial.target pairTrial.context with
  | .ok (s, _) => s
  | .error _ => .skip

def pairSession (clauses : List Clause) : Session where
  machine := { store := pairStore, stack := [.stmt (pairStmt clauses) pairTrial.env] }
  world := default

theorem pairStore_valid :
  pairStore.Valid
  := by
  have hwf : pairStore.WellFormed := .of_no_link (by decide) (by decide)
  refine ⟨hwf.leads, fun v id h => hwf.bound v _ h, ?_, ?_, ?_, ?_⟩
  · simp [pairStore, Record.values, Record.tuple, Leaf.toValue, Leaf.lit, Value.scalar, -mem_map]
  all_goals simp [pairStore]

/-- The value is bound, and what it is bound to is among the values, with its fields. -/
def boundIn (s : Store) (values : List Value) (u : Value) : Bool :=
  match s.resolve u with
  | .var _ => false
  | .datum (.scalar a) => values.contains (.datum (.scalar a))
  | .datum (.record id) => values.contains (.datum (.record id)) && (s.record id).values.all values.contains

theorem ground_of_mem {s : Store} (values : List Value) (h : ∀ u ∈ values, boundIn s values u = true) :
  ∀ v ∈ values, s.Ground v
  := by
  intro v hv u hu
  have hmem : u ∈ values := by
    induction hu with
    | self => exact hv
    | @resolve u _ ih =>
      have hu := h u ih
      rw [boundIn] at hu
      split at hu <;> simp_all
    | @field id w _ hw ih =>
      have hid : (s.record id).values.all values.contains = true := ((Bool.and_eq_true ..).mp (h _ ih)).2
      simpa using all_eq_true.mp hid w hw
  have hu := h u hmem
  rw [boundIn] at hu
  split at hu
  · cases hu
  · exact ⟨_, ‹_›⟩
  · exact ⟨_, ‹_›⟩

theorem pairStore_ground :
  pairStore.Ground (.var 0)
  := ground_of_mem [.var 0, .var 1, .datum (.record 0), .datum (.record 1), .lit (.int32 7)] (by decide) _ mem_cons_self

theorem pairTrial_ready (hproper : ∀ clause ∈ clauses, clause.Proper)
    (hexact : ∀ clause ∈ clauses, ∀ x, .exact x ∉ clause.pattern.uses) :
  pairTrial.Ready clauses pairStore where
  foreign := forall_mem_singleton.mpr (Context.foreign_of_written _ (by decide))
  value υ := Exec.returns_operand rfl υ
  within := show 0 < 4 by decide
  ground := pairStore_ground
  proper := hproper
  features clause hclause x hx := absurd hx (hexact clause hclause x)
  outer clause hclause d d' root children hlower :=
    featuresOuter_lower hlower (hproper clause hclause).pattern fun x hx => absurd hx (hexact clause hclause x)

theorem pairSession_consistent (clauses : List Clause) :
  (pairSession clauses).Consistent
  := by
  refine ⟨⟨pairStore_valid, forall_mem_nil _, forall_mem_nil _⟩, forall_mem_singleton.mpr ?_⟩
  simp [Frame.Within, Env.Within, pairSession, pairTrial, pairStore]

theorem pairClauses_proper :
  ∀ clause ∈ pairClauses, clause.Proper
  := by
  have hbody {e : Expr} (he : e.Proper) : ∀ e' ∈ [e], e'.Proper := forall_mem_singleton.mpr he
  simp only [pairClauses, forall_mem_cons]
  refine ⟨⟨?_, nofun, hbody (.lit _ _)⟩, ⟨?_, ?_, hbody (.lit _ _)⟩,
    ⟨?_, nofun, hbody (.ident _ (by decide))⟩, forall_mem_nil _⟩
  · show ∀ u ∈ (nested "a" (.escaped "x")).uses, Written u.name
    decide
  · show ∀ u ∈ (nested "a" (.ident "b")).uses, Written u.name
    decide
  · rintro _ ⟨⟩
    exact .binary _ _ (.ident _ (by decide)) (.ident _ (by decide))
  · show ∀ u ∈ PatternForm.uses _, Written u.name
    decide

/-- The first pattern fails at its inner part and the guard of the second clause is false, so the third clause is
taken. -/
theorem first_match_pair :
  pairTrial.Takes pairClauses (pairSession pairClauses) ∧ ((pairSession pairClauses).run 100).1 = some .done ∧
  ((pairSession pairClauses).run 100).2.store.resolve (.var 3) = .lit (.int32 7)
  := by
  refine ⟨?_, by cbv, by cbv⟩
  have hrun : alternatives pairTrial.arg pairTrial.fallback (ofClauses pairClauses) pairTrial.target
      pairTrial.context = .ok (pairStmt pairClauses, { next := 5 }) := rfl
  have hfree : (pairStmt pairClauses).free = ["v", "x", Kernel.programResult] := by
    cbv
  refine first_match hrun ⟨?_, ?_, ?_⟩ ?_ (pairTrial_ready pairClauses_proper ?_) (pairSession_consistent _) rfl ?_
  · exact forall_mem_nil _
  · exact nodup_nil
  · exact forall_mem_nil _
  · exact forall_mem_singleton.mpr ⟨by decide, Context.spares_of_second _ (by decide) (by decide)⟩
  · simp [pairClauses, nested, Clause.pattern, Pattern.uses, PatternForm.uses, valueUses]
  · rw [hfree]
    simp [Env.Binds, pairTrial, Kernel.programResult]

/-- The clauses `of [x, [~x]] then 'first' of [a, [b]] then 'second'`. -/
def pinClauses : List Clause :=
  [.mk (nested "x" (.escaped "x")) none [.mk default (.lit (.str "first"))],
   .mk (nested "a" (.ident "b")) none [.mk default (.lit (.str "second"))]]

/-- The first of two patterns does not match where the clauses are tried, for it asks for the value of `x` there.  But
the machine takes the first clause: it reads what has just been captured. -/
theorem captured_pin_taken :
  (nested "x" (.escaped "x")).match? pairStore pairTrial.env pairTrial.value = none ∧
  ((nested "a" (.ident "b")).match? pairStore pairTrial.env pairTrial.value).isSome ∧
  ((pairSession pinClauses).run 100).2.store.resolve (.var 3) = .lit (.str "first")
  := by
  refine ⟨?_, ?_, ?_⟩ <;> cbv

end Trial

end ActorLang
