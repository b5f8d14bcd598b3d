import ActorLang.Proofs.Control.Stacks
import ActorLang.Proofs.Machine.Statements

/-!
# Roles in a running program

A variable with a role is unbound, or bound to a closure with the same role, whose body keeps the
discipline of the role.  Statements that have to do with roles declare such variables, create such
closures, or apply them.
-/

namespace ActorLang

open Kernel (Ident Operand Stmt)
open List

/-- The body of a procedure of the program keeps the discipline, whatever is due. -/
def Definition.Plain (d : Definition) : Prop :=
  ∃ Γ : Control.Typing, (∀ x r, Γ x ≠ .special r) ∧ ∀ due, Control.Ok d.body Γ .none due due due

variable {params : List Ident} {body block : Stmt} {a : Scalar} {args : List Operand} {Γ : Typing}
  {c : Closure} {id : ProcId} {r : Role}

namespace Control

section Store

variable {G G' : Tags} {V W : View} {s t : Store} {v : VarId}

/-- The body of the closure keeps the discipline of a role. -/
structure Plays (G : Tags) (V : View) (Γ : Typing) (r : Role) (c : Closure) : Prop where
  ok : Ok c.body (Γ.set c.params .plain) r.labels r.due r.due r.due
  catches : ∀ n ∈ c.body.catches, r.labels n = none
  params : r.final.isSome → c.params = []
  suits : Suits G V Γ (Env.extend [] c.env) (c.body.occurrences.filter (!c.params.contains ·))

theorem Plays.mono (h : Plays G V Γ r c) (hG : G ≤ G') (hV : V ≤ W) :
  Plays G' W Γ r c
  := { h with suits := h.suits.mono hG hV }

theorem Plays.suits_args (h : Plays G V Γ r c) {args : List VarId} (hargs : ∀ v ∈ args, V.vars v)
    (hlength : c.params.length = args.length) :
  Suits G V (Γ.set c.params .plain) (Env.extend [] (c.env ++ c.params.zip args)) c.body.occurrences
  := by
  have hextend : Env.extend [] (c.env ++ c.params.zip args) = (Env.extend [] c.env).extend (c.params.zip args) := by
    simp [Env.extend]
  rw [hextend]
  apply h.suits.extend_plain
  · intro x
    rw [map_fst_zip (Nat.le_of_eq hlength)]
  · exact fun b hb => hargs b.2 (of_mem_zip hb).2

/-- Variables and closures of the store are what their roles say, and values do not lead to them. -/
structure Tagged (G : Tags) (V : View) (s : Store) : Prop where
  shows : s.Shows V
  vars : ∀ v r, G.vars v = some r → ¬ V.vars v ∧ (s.slots[v]? = some .unbound ∧ r.final = none ∨
      ∃ id, s.slots[v]? = some (.bound (.scalar (.proc (.closure id)))) ∧ G.procs id = some r)
  finals : ∀ v r w, G.vars v = some r → r.final = some w → w = v
  procs : ∀ id r, G.procs id = some r → ¬ V.procs id ∧ ∃ c Γ, s.procs[id]? = some c ∧ Plays G V Γ r c

theorem Tagged.lt_vars (h : Tagged G V s) (hv : G.vars v = some r) :
  v < s.slots.size
  := by
  rcases (h.vars v r hv).2 with ⟨hslot, -⟩ | ⟨_, hslot, -⟩
  · exact (Array.getElem?_eq_some_iff.mp hslot).1
  · exact (Array.getElem?_eq_some_iff.mp hslot).1

theorem Tagged.lt_procs (h : Tagged G V s) (hid : G.procs id = some r) :
  id < s.procs.size
  := by
  obtain ⟨-, c, _, hc, -⟩ := h.procs id r hid
  exact (Array.getElem?_eq_some_iff.mp hc).1

theorem Tagged.grown (h : Tagged G V s) (hgrown : Store.Grown V W s t) :
  Tagged G W t where
  shows := h.shows.grown hgrown
  vars v r hr := by
    obtain ⟨hview, hslot⟩ := h.vars v r hr
    have hlt := h.lt_vars hr
    rw [hgrown.slots v hlt hview]
    exact ⟨fun hv => (hgrown.vars v hv).elim hview fun hnew => Nat.not_lt.mpr hnew.1 hlt, hslot⟩
  finals := h.finals
  procs id r hr := by
    obtain ⟨hview, c, Γ, hc, hplays⟩ := h.procs id r hr
    refine ⟨fun hid => ?_, c, Γ, hgrown.closure_eq hc, hplays.mono G.le_refl hgrown.le⟩
    exact (hgrown.procs id hid).elim hview fun hnew => Nat.not_lt.mpr hnew.1 (h.lt_procs hr)

/-! ### New roles -/

def Tags.setVar (G : Tags) (v : VarId) (r : Role) : Tags :=
  { G with vars := fun u => if u = v then some r else G.vars u }

def Tags.setProc (G : Tags) (id : ProcId) (r : Role) : Tags :=
  { G with procs := fun id' => if id' = id then some r else G.procs id' }

theorem Tags.le_setVar (h : G.vars v = none ∨ G.vars v = some r) :
  G ≤ G.setVar v r
  := by
  refine { G.le_refl with vars := ?_ }
  intro u _ hu
  by_cases huv : u = v
  · subst huv
    rcases h with h | h
    · cases h.symm.trans hu
    · rw [← hu, h]
      exact if_pos rfl
  · exact (if_neg huv).trans hu

theorem Tags.le_setProc (h : G.procs id = none) :
  G ≤ G.setProc id r
  := by
  refine { G.le_refl with procs := ?_ }
  intro _ _ hid'
  refine (if_neg ?_).trans hid'
  rintro rfl
  cases h.symm.trans hid'

theorem Tagged.newVar (h : Tagged G V s) (hr : r.final = none) :
  Tagged (G.setVar s.slots.size r) V s.newVar.2 ∧ G ≤ G.setVar s.slots.size r
  := by
  have hle : G ≤ G.setVar s.slots.size r :=
    Tags.le_setVar (.inl (Option.eq_none_iff_forall_ne_some.mpr fun _ hr => Nat.lt_irrefl _ (h.lt_vars hr)))
  have hgrown := h.grown (Store.Grown.newSlot V s .unbound)
  refine ⟨⟨hgrown.shows, ?_, ?_, ?_⟩, hle⟩
  · intro v r' hv
    by_cases hnew : v = s.slots.size
    · obtain rfl : r = r' := Option.some.inj ((if_pos hnew).symm.trans hv)
      subst hnew
      refine ⟨fun hview => Nat.lt_irrefl _ (h.shows.vars _ hview), .inl ⟨?_, hr⟩⟩
      simp [Store.newVar, Store.newSlot]
    · exact hgrown.vars v r' ((if_neg hnew).symm.trans hv)
  · intro v r' w hv hw
    by_cases hnew : v = s.slots.size
    · obtain rfl : r = r' := Option.some.inj ((if_pos hnew).symm.trans hv)
      cases hr.symm.trans hw
    · exact h.finals v r' w ((if_neg hnew).symm.trans hv) hw
  · intro id r' hid
    obtain ⟨hview, c, Γ, hc, hplays⟩ := hgrown.procs id r' hid
    exact ⟨hview, c, Γ, hc, hplays.mono hle V.le_refl⟩

theorem Tagged.newClosure (h : Tagged G V s) (hc : Plays G V Γ r c) :
  Tagged (G.setProc s.procs.size r) V (s.newClosure c).2 ∧ G ≤ G.setProc s.procs.size r
  := by
  have hle : G ≤ G.setProc s.procs.size r :=
    Tags.le_setProc (Option.eq_none_iff_forall_ne_some.mpr fun _ hr => Nat.lt_irrefl _ (h.lt_procs hr))
  have hgrown := h.grown (Store.Grown.newClosure V s c)
  refine ⟨⟨hgrown.shows, ?_, hgrown.finals, ?_⟩, hle⟩
  · intro v r' hv
    obtain ⟨hview, hslot⟩ := hgrown.vars v r' hv
    exact ⟨hview, hslot.imp_right fun ⟨id, hid, hr⟩ => ⟨id, hid, hle.procs id r' hr⟩⟩
  · intro id r' hid
    by_cases hnew : id = s.procs.size
    · obtain rfl : r = r' := Option.some.inj ((if_pos hnew).symm.trans hid)
      subst hnew
      refine ⟨fun hview => Nat.lt_irrefl _ (h.shows.procs _ hview), c, Γ, ?_, hc.mono hle V.le_refl⟩
      simp [Store.newClosure]
    · obtain ⟨hview, c', Γ', hc', hplays⟩ := hgrown.procs id r' ((if_neg hnew).symm.trans hid)
      exact ⟨hview, c', Γ', hc', hplays.mono hle V.le_refl⟩

theorem Tagged.bind (h : Tagged G V s) (hv : ¬ V.vars v) (hlt : v < s.slots.size)
    (hid : G.procs id = some r) (hrole : G.vars v = some r ∨ G.vars v = none ∧ r.final = some v) :
  Tagged (G.setVar v r) V (s.setSlot v (.bound (.scalar (.proc (.closure id))))) ∧ G ≤ G.setVar v r
  := by
  have hle : G ≤ G.setVar v r := Tags.le_setVar (hrole.symm.imp_left (·.1))
  refine ⟨⟨⟨?_, h.shows.procs, h.shows.cfgs⟩, ?_, ?_, ?_⟩, hle⟩
  · simpa [Store.setSlot] using h.shows.vars
  · intro u r' hu
    by_cases huv : u = v
    · obtain rfl : r = r' := Option.some.inj ((if_pos huv).symm.trans hu)
      subst huv
      refine ⟨hv, .inr ⟨id, ?_, hid⟩⟩
      simp [Store.setSlot, hlt]
    · rw [Store.setSlot, Array.getElem?_setIfInBounds_ne (Ne.symm huv)]
      exact h.vars u r' ((if_neg huv).symm.trans hu)
  · intro u r' w hu hw
    by_cases huv : u = v
    · obtain rfl : r = r' := Option.some.inj ((if_pos huv).symm.trans hu)
      subst huv
      rcases hrole with hrole | ⟨-, hfinal⟩
      · exact h.finals u r w hrole hw
      · exact (Option.some.inj (hfinal.symm.trans hw)).symm
    · exact h.finals u r' w ((if_neg huv).symm.trans hu) hw
  · intro id' r' hid'
    obtain ⟨hview, c, Γ, hc, hplays⟩ := h.procs id' r' hid'
    exact ⟨hview, c, Γ, hc, hplays.mono hle V.le_refl⟩

end Store

section Session

variable {G G' G'' : Tags} {V W W' : View} {σ σ' σ'' : Session} {env captured : Env}
variable {v w : VarId} {s t : Store} {f target : Ident}

/-- The session keeps values and roles apart. -/
structure Apart (G : Tags) (V : View) (σ : Session) : Prop where
  tame : σ.Tame V Definition.Plain
  tagged : Tagged G V σ.store
  names : ∀ x, V.names x

/-- The session has gone on from `σ` to `σ'`, without touching the stack. -/
structure Later (G : Tags) (V : View) (σ : Session) (G' : Tags) (W : View) (σ' : Session) :
    Prop where
  apart : Apart G' W σ'
  tags : G ≤ G'
  view : V ≤ W
  stack : σ'.stack = σ.stack

theorem Apart.later_self (h : Apart G V σ) :
  Later G V σ G V σ
  := ⟨h, G.le_refl, V.le_refl, rfl⟩

theorem Later.trans (h : Later G V σ G' W σ') (h' : Later G' W σ' G'' W' σ'') :
  Later G V σ G'' W' σ''
  := ⟨h'.apart, Tags.le_trans h.tags h'.tags, View.le_trans h.view h'.view, h'.stack.trans h.stack⟩

theorem Apart.later (h : Apart G V σ) (htame : σ'.Tame W Definition.Plain)
    (hgrown : Store.Grown V W σ.store σ'.store)
    (hstack : σ'.stack = σ.stack) :
  Later G V σ G W σ' where
  apart := ⟨htame, h.tagged.grown hgrown, hgrown.le.names.symm ▸ h.names⟩
  tags := G.le_refl
  view := hgrown.le
  stack := hstack

theorem Apart.withStore (h : Apart G V σ) (ht : t.Tame V Definition.Plain) (htagged : Tagged G' V t) (hle : G ≤ G') :
  Later G V σ G' V (σ.withStore t) where
  apart := ⟨⟨⟨ht, h.tame.machine.pending, h.tame.machine.spawns⟩, h.tame.world⟩, htagged, h.names⟩
  tags := hle
  view := V.le_refl
  stack := rfl

/-! ### Declarations -/

theorem Apart.newVars (h : Apart G V σ) (names special : List Ident) (hr : r.final = none) :
  ∃ vars σ' G' W, (Exec.newVars names).Returns σ vars σ' ∧ Later G V σ G' W σ' ∧ vars.map (·.1) = names ∧
    ∀ b ∈ vars, if b.1 ∈ special then G'.vars b.2 = some r else W.vars b.2
  := by
  induction names generalizing G V σ with
  | nil => exact ⟨[], σ, G, V, rfl, h.later_self, rfl, by simp⟩
  | cons name _ ih =>
    have hfirst : ∃ G' W, Later G V σ G' W (σ.withStore σ.store.newVar.2) ∧
        if name ∈ special then G'.vars σ.store.newVar.1 = some r
        else W.vars σ.store.newVar.1 := by
      by_cases hspecial : name ∈ special
      · obtain ⟨htagged, hle⟩ := h.tagged.newVar hr
        have htame := h.tame.machine.store.newSlot .unbound trivial
        refine ⟨_, V, h.withStore htame htagged hle, ?_⟩
        rw [if_pos hspecial]
        exact if_pos rfl
      · obtain ⟨W, htame, hgrown, hv⟩ := h.tame.machine.store.newVar
        have htame : (σ.withStore σ.store.newVar.2).Tame W Definition.Plain :=
          ⟨⟨htame, fun b hb => hgrown.le.vars _ (h.tame.machine.pending b hb), h.tame.machine.spawns⟩, h.tame.world⟩
        refine ⟨G, W, h.later htame hgrown rfl, ?_⟩
        rw [if_neg hspecial]
        exact hv
    obtain ⟨_, W, hlater, hv⟩ := hfirst
    obtain ⟨vars, σ', G'', W', hrun, hlater', hnames, hvars⟩ := ih hlater.apart
    refine ⟨(name, σ.store.newVar.1) :: vars, σ', G'', W', ?_, hlater.trans hlater', ?_, ?_⟩
    · apply (Exec.returns_onStore (·.newVar) σ).bind
      apply hrun.bind
      rfl
    · rw [map_cons, hnames]
    · refine forall_mem_cons.mpr ⟨?_, hvars⟩
      split at hv
      next hspecial =>
        rw [if_pos hspecial]
        exact hlater'.tags.vars _ _ hv
      next hspecial =>
        rw [if_neg hspecial]
        exact hlater'.view.vars _ hv

/-! ### Closures -/

theorem capture_cases (env : Env) (names : List Ident) (σ : Session) :
  (∃ captured, (Exec.capture env names).Returns σ captured σ ∧ captured.map (·.1) = names ∧
    ∀ b ∈ captured, env.lookup b.1 = some b.2) ∨
  ∃ x, (Exec.capture env names).run σ = (.error (.fault (.identNotFound x)), σ)
  := by
  induction names with
  | nil => exact .inl ⟨[], rfl, rfl, by simp⟩
  | cons name _ ih =>
    cases hname : env.lookup name with
    | none =>
      refine .inr ⟨name, Exec.run_bind_error ?_⟩
      rw [Exec.lookup, hname]
      rfl
    | some v =>
      have hv := Exec.returns_lookup hname σ
      rcases ih with ⟨captured, hrun, hnames, hcaptured⟩ | ⟨x, hrun⟩
      · refine .inl ⟨(name, v) :: captured, hv.bind (hrun.bind rfl), ?_, ?_⟩
        · rw [map_cons, hnames]
        · exact forall_mem_cons.mpr ⟨hname, hcaptured⟩
      · exact .inr ⟨x, (hv.run_bind _).trans (Exec.run_bind_error hrun)⟩

theorem plays_captured (hnames : captured.map (·.1) = Stmt.captured params body)
    (hcaptured : ∀ b ∈ captured, env.lookup b.1 = some b.2)
    (hok : Ok body (Γ.set params .plain) r.labels r.due r.due r.due)
    (hcatches : ∀ n ∈ body.catches, r.labels n = none) (hparams : r.final.isSome → params = [])
    (hsuits : Suits G V Γ env (body.occurrences.filter (!params.contains ·))) :
  Plays G V Γ r ⟨params, body, captured⟩
  := by
  refine ⟨hok, hcatches, hparams, ?_⟩
  intro x hx
  have hmem : x ∈ captured.map (·.1) := by
    rw [hnames]
    exact mem_eraseDups.mpr hx
  obtain ⟨v, hv, hlookup⟩ := Env.lookup_extend_of_mem hmem
  rw [hlookup [], ← hcaptured _ hv]
  exact hsuits x hx

theorem unify_bound (hv : s.slots[v]? = some (.bound (.scalar a))) (b : Scalar) :
  (s.unify (.var v) (.datum (.scalar b))).2 = s
  := by
  rw [Store.unify, Store.unifyAll, Store.resolve_of_bound hv]
  simp only [Store.resolve]
  split
  · rw [Store.unifyAll]
  · rfl

theorem returns_bind (hv : σ.store.slots[v]? = some .unbound) (d : Datum) :
  (Exec.bind v (.datum d)).Returns σ () (σ.withStore (σ.store.setSlot v (.bound d)))
  := by
  have hunify := Exec.returns_onStore (·.unify (.var v) (.datum d)) σ
  rw [Store.unify_unbound hv] at hunify
  exact hunify.bind rfl

/-- Binding a variable that is bound to a scalar to another one changes nothing. -/
theorem bind_bound (hv : σ.store.slots[v]? = some (.bound (.scalar a))) (b : Scalar) :
  ∃ result, (Exec.bind v (.datum (.scalar b))).run σ = (result, σ) ∧
    (result = .ok () ∨ ∃ m, result = .error (.fault (.unification m)))
  := by
  have hunify := Exec.returns_onStore (·.unify (.var v) (.datum (.scalar b))) σ
  rw [unify_bound hv] at hunify
  rw [Exec.bind, hunify.run_bind]
  split
  next => exact ⟨_, rfl, .inl rfl⟩
  next m _ => exact ⟨_, rfl, .inr ⟨m, rfl⟩⟩

theorem newClosure_cases (hok : Ok body (Γ.set params .plain) r.labels r.due r.due r.due)
    (hcatches : ∀ n ∈ body.catches, r.labels n = none) (hparams : r.final.isSome → params = [])
    (hsuits : Suits G V Γ env (body.occurrences.filter (!params.contains ·))) (σ : Session) :
  (∃ c, (Exec.newClosure env params body).Returns σ c σ ∧ Plays G V Γ r c) ∨
  ∃ x, (Exec.newClosure env params body).run σ = (.error (.fault (.identNotFound x)), σ)
  := by
  rcases capture_cases env (Stmt.captured params body) σ with
    ⟨captured, hrun, hnames, hcaptured⟩ | ⟨x, hrun⟩
  · exact .inl ⟨_, hrun.bind rfl, plays_captured hnames hcaptured hok hcatches hparams hsuits⟩
  · exact .inr ⟨x, Exec.run_bind_error hrun⟩

theorem Apart.newClosure (h : Apart G V σ) (hc : Plays G V Γ r c) :
  ∃ G', Later G V σ G' V (σ.withStore (σ.store.newClosure c).2) ∧
    G'.procs σ.store.procs.size = some r ∧ G'.vars = G.vars
  := by
  obtain ⟨htagged, hle⟩ := h.tagged.newClosure hc
  have hnew : ¬ V.procs σ.store.procs.size :=
    fun hview => Nat.lt_irrefl _ (h.tagged.shows.procs _ hview)
  exact ⟨_, h.withStore (h.tame.machine.store.hideClosure c hnew) htagged hle, if_pos rfl, rfl⟩

theorem Apart.bindClosure (h : Apart G V σ) (hv : ¬ V.vars v)
    (hlt : v < σ.store.slots.size) (hid : G.procs id = some r)
    (hrole : G.vars v = some r ∨ G.vars v = none ∧ r.final = some v) :
  ∃ G', Later G V σ G' V (σ.withStore (σ.store.setSlot v (.bound (.scalar (.proc (.closure id)))))) ∧
    G'.vars v = some r
  := by
  obtain ⟨htagged, hle⟩ := h.tagged.bind hv hlt hid hrole
  exact ⟨_, h.withStore (h.tame.machine.store.setHidden hv _) htagged hle, if_pos rfl⟩

theorem Apart.createProc (h : Apart G V σ)
    (htarget : env.lookup target = some v) (hv : G.vars v = some r) (hr : r.final = none)
    (hok : Ok body (Γ.set params .plain) r.labels r.due r.due r.due)
    (hcatches : ∀ n ∈ body.catches, r.labels n = none)
    (hsuits : Suits G V Γ env (body.occurrences.filter (!params.contains ·))) :
  ∃ result σ' G', (Exec.stmt env (.createProc params body target)).run σ = (result, σ') ∧ Later G V σ G' V σ' ∧
    (result = .ok .rest ∨ ∃ e : Interrupt, result = .error e ∧ e.Tame V)
  := by
  rw [Exec.stmt]
  rcases newClosure_cases hok hcatches (by simp [hr]) hsuits σ with ⟨c, hc, hplays⟩ | ⟨x, hx⟩
  case inr =>
    exact ⟨_, σ, G, Exec.run_bind_error hx, h.later_self, .inr ⟨_, rfl, h.names x⟩⟩
  case inl =>
    obtain ⟨G', hlater, hid, hvars⟩ := h.newClosure hplays
    have hproc := (Exec.returns_onStore (·.newClosure c) σ)
    rw [hc.run_bind, (Exec.returns_lookup htarget σ).run_bind, Exec.bindClosure, bind_assoc, hproc.run_bind]
    obtain ⟨hview, hslot⟩ := h.tagged.vars v r hv
    rcases hslot with ⟨hslot, -⟩ | ⟨_, hslot, -⟩
    · -- the variable is unbound, and gets the new closure
      obtain ⟨G'', hlater', -⟩ := hlater.apart.bindClosure hview (h.tagged.lt_vars hv) hid (.inl (hvars ▸ hv))
      refine ⟨_, _, G'', ?_, hlater.trans hlater', .inl rfl⟩
      exact (returns_bind (σ := σ.withStore (σ.store.newClosure c).2) hslot _).run_bind _
    · -- the variable is bound already, and the new closure is lost
      obtain ⟨result, hrun, hresult⟩ :=
        bind_bound (σ := σ.withStore (σ.store.newClosure c).2) hslot
          (.proc (.closure σ.store.procs.size))
      rcases hresult with rfl | ⟨m, rfl⟩
      · have hrun : Exec.Returns _ _ _ _ := hrun
        exact ⟨_, _, G', hrun.run_bind _, hlater, .inl rfl⟩
      · exact ⟨_, _, G', Exec.run_bind_error hrun, hlater, .inr ⟨_, rfl, rfl⟩⟩

theorem Apart.createFinal (h : Apart G V σ) (hf : env.lookup f = some v)
    (hslot : σ.store.slots[v]? = some .unbound) (hview : ¬ V.vars v)
    (hnew : G.vars v = none) (hr : r.final = some v) (hok : Ok block Γ r.labels r.due r.due r.due)
    (hcatches : ∀ n ∈ block.catches, r.labels n = none)
    (hsuits : Suits G V Γ env block.occurrences) :
  ∃ result σ', (Exec.stmt env (.createProc [] block f)).run σ = (result, σ') ∧
    ((result = .ok .rest ∧ ∃ G', Later G V σ G' V σ' ∧ G'.vars v = some r) ∨
      ∃ x, result = .error (.fault (.identNotFound x)) ∧ σ' = σ)
  := by
  rw [Exec.stmt]
  have hset : Γ.set [] .plain = Γ := funext fun x => if_neg (not_mem_nil)
  rcases newClosure_cases (hset ▸ hok) hcatches (fun _ => rfl) (by simpa using hsuits) σ with
    ⟨c, hc, hplays⟩ | ⟨x, hx⟩
  case inr => exact ⟨_, σ, Exec.run_bind_error hx, .inr ⟨x, rfl, rfl⟩⟩
  case inl =>
    obtain ⟨_, hlater, hid, hvars⟩ := h.newClosure hplays
    have hlt := (Array.getElem?_eq_some_iff.mp hslot).1
    obtain ⟨G'', hlater', hv⟩ := hlater.apart.bindClosure hview hlt hid (.inr ⟨hvars ▸ hnew, hr⟩)
    have hproc := (Exec.returns_onStore (·.newClosure c) σ)
    rw [hc.run_bind, (Exec.returns_lookup hf σ).run_bind, Exec.bindClosure, bind_assoc]
    refine ⟨_, _, ?_, .inl ⟨rfl, G'', hlater.trans hlater', hv⟩⟩
    exact (returns_bind (σ := σ.withStore (σ.store.newClosure c).2) hslot _).run_bind _

/-! ### Applications -/

theorem closure_eq (hc : s.procs[id]? = some c) :
  s.closure id = c
  := by
  rw [Store.closure, Array.getD_eq_getD_getElem?, hc, Option.getD_some]

theorem agreeFrom_applyOperands {M : Mode} {C : Definition → Prop} (hσ : σ.Orderly M V C)
    (hc : σ.store.procs[id]? = some c)
    (hargs : ∀ x ∈ Kernel.operandIdents args, Exec.SameVar V env env x x) :
  Exec.AgreeFrom .looksThenActs M V C σ (Exec.applyOperands env (.scalar (.proc (.closure id))) args)
    (Exec.applyOperands env (.scalar (.proc (.closure id))) args)
    (Exec.Same fun W next => ∃ vars, (∀ v ∈ vars, W.vars v) ∧ c.params.length = vars.length ∧
      next = .enter c.body (Env.extend [] (c.env ++ c.params.zip vars)))
  := by
  have htwins : Forall₂ (OperandTwin (Exec.SameName V env env)) args args := by
    apply Exec.operandTwins_narrow (Exec.operandTwins_refl (fun _ => rfl) args)
    rintro x hx _ - rfl
    exact ⟨hargs x hx, Iff.rfl⟩
  have hargs := Exec.withoutResult_same htwins (Exec.arity σ.store (.closure id))
  refine (Exec.agree_operandVars hargs σ hσ).bind ?_
  rintro W σ' hσ' hgrown vars _ - - ⟨rfl, hvars⟩
  have hc' : σ'.store.closure id = c := closure_eq (hgrown.store.closure_eq hc)
  apply Exec.agreeFrom_withStore
  refine Exec.agree_unless rfl hσ' fun hlength => ?_
  apply Exec.agreeFrom_withStore
  rw [hc']
  refine Exec.agree_pure ⟨rfl, vars, hvars, ?_, rfl⟩ σ' hσ'
  rw [Exec.arity, hc'] at hlength
  exact Decidable.not_not.mp hlength

section

variable (h : Apart G V σ) (hf : env.lookup f = some v) (hv : G.vars v = some r)

include h hf hv

theorem Apart.determined :
  (r.final = none ∧ (Exec.determinedOperand env (.ident f)).run σ = (.error (.suspend v), σ)) ∨
  ∃ id c Γ, (Exec.determinedOperand env (.ident f)).Returns σ (.scalar (.proc (.closure id))) σ ∧
    σ.store.procs[id]? = some c ∧ Plays G V Γ r c
  := by
  have hoperand := Exec.returns_operand hf σ
  rw [Exec.determinedOperand]
  rcases (h.tagged.vars v r hv).2 with ⟨hslot, hfinal⟩ | ⟨id, hslot, hid⟩
  · refine .inl ⟨hfinal, ?_⟩
    rw [hoperand.run_bind, Exec.determined, (Exec.returns_withStore _ σ).run_bind, Store.resolve_of_unbound hslot]
    rfl
  · obtain ⟨-, c, Γ, hc, hplays⟩ := h.tagged.procs id r hid
    exact .inr ⟨id, c, Γ, hoperand.bind (Exec.returns_determined (Store.resolve_of_bound hslot)), hc, hplays⟩

theorem Apart.apply (hargs : ∀ x ∈ Kernel.operandIdents args, Exec.SameVar V env env x x) :
  ∃ result σ' W, (Exec.stmt env (.apply (.ident f) args)).run σ = (result, σ') ∧ Later G V σ G W σ' ∧
    ((∃ c Γ vars, Plays G W Γ r c ∧ (∀ v ∈ vars, W.vars v) ∧ c.params.length = vars.length ∧
        result = .ok (.enter c.body (Env.extend [] (c.env ++ c.params.zip vars)))) ∨
      ∃ e : Interrupt, result = .error e ∧ e.Tame W)
  := by
  rw [Exec.stmt]
  rcases h.determined hf hv with ⟨-, hrun⟩ | ⟨_, c, Γ, hrun, hc, hplays⟩
  · exact ⟨_, σ, V, Exec.run_bind_error hrun, h.later_self, .inr ⟨_, rfl, trivial⟩⟩
  · rw [hrun.run_bind]
    obtain ⟨result, σ', W, hrun, -, hσ', hgrown, hends⟩ :=
      (agreeFrom_applyOperands h.tame.lax hc hargs σ.scene ⟨fun _ => rfl, .refl _ _⟩).resolve_left (·.2.1 trivial)
    refine ⟨result, σ', W, hrun, h.later hσ'.tame hgrown.store hgrown.stack, ?_⟩
    obtain ⟨_, _, -, -, hagrees⟩ := hends.exists_alike trivial
    cases hagrees with
    | ok hsame =>
      obtain ⟨-, vars, hvars, hlength, hnext⟩ := hsame
      exact .inl ⟨c, Γ, vars, hplays.mono G.le_refl hgrown.store.le, hvars, hlength, congrArg Except.ok hnext⟩
    | error he _ => exact .inr ⟨_, rfl, he⟩

theorem Apart.callFinal (hr : r.final = some w) :
  ∃ c Γ, Plays G V Γ r c ∧ (Exec.stmt env (.call f)).Returns σ
    (.enter c.body (Env.extend [] (c.env ++ c.params.zip []))) σ
  := by
  rcases h.determined hf hv with ⟨hnone, -⟩ | ⟨id, c, Γ, hrun, hc, hplays⟩
  · cases hnone.symm.trans hr
  · refine ⟨c, Γ, hplays, hrun.bind ?_⟩
    have hparams : c.params = [] := hplays.params (by simp [hr])
    have harity : Exec.arity σ.store (.closure id) = 0 := by
      rw [Exec.arity, closure_eq hc, hparams, length_nil]
    have happly : (Exec.apply (.scalar (.proc (.closure id))) []).Returns σ
        (.enter c.body (Env.extend [] (c.env ++ c.params.zip []))) σ := by
      apply (Exec.returns_withStore (Exec.arity · (.closure id)) σ).bind
      rw [harity]
      apply (Exec.returns_withStore (·.closure id) σ).bind
      rw [closure_eq hc]
      rfl
    exact happly

end

end Session

end Control

end ActorLang
