import ActorLang.Proofs.Control.Ledger
import ActorLang.Proofs.Control.Roles

/-!
# Executing a statement

What comes of executing the statement on top of a stack that keeps the discipline.  `Led` lists all
that there is: control goes on with the same due, a final part is invoked and not due any more, an
attempt with a final part is about to be entered, or the statement is interrupted.
-/

namespace ActorLang

open Kernel (Ident Operand Stmt)
open List
open Exec (Aligned Follow Applied Capturing)

variable {next : Next} {σ' σ : Session} {G' G : Tags} {W V : View} {names special params : List Ident} {body s : Stmt}

namespace Control

/-- What may be due at frames that come onto a stack of this height: `Q` holds of it. -/
structure Admits (G : Tags) (P : Nat → Mark → Due → Prop) (Q : Due → Prop) (height : Nat) (due : Due) :
    Prop where
  all : ∀ height mark due, P height mark due → Q due
  nil : Q []
  suffix : ∀ due due', Q due → due' <:+ due → Q due'
  here : Q due
  stmt : ∀ above due', height < above → Q due' → P above .stmt due'
  handler : ∀ above, height < above → P above .handler due
  entered : ∀ {V acts Λ caught a}, Typed G V P acts a.base Λ caught due → a.base.length = height →
    (∀ v, a.callee = some v → ¬ G.IsFinal v) → P height (.entered a) due

structure Top (G : Tags) (V : View) (P : Nat → Mark → Due → Prop) (acts : List Activation)
    (rest : Stack) (Λ : Labels) (caught due due' : Due) (Γ : Typing) (s : Stmt) (env : Env) :
    Prop where
  rest : Typed G V P acts rest Λ caught due'
  ok : Ok s Γ Λ caught due due'
  suits : Suits G V Γ env s.occurrences
  owned : Owned acts s.catches

/-- An attempt that is about to be entered: its final part `block` will be bound to `v`. -/
structure Opening (G : Tags) (V : View) (P : Nat → Mark → Due → Prop) (acts : List Activation)
    (store : Store) (rest : Stack) (Λ : Labels) (due : Due) (f : Ident) (v : VarId)
    (block attempt : Stmt) (env : Env) (Γ : Typing) : Prop where
  rest : Typed G V P acts rest Λ due due
  isTry : Stmt.isTry [f] (.seq [.createProc [] block f, attempt, .call f]) = true
  finalOk : Ok block (Γ.set [f] .absent) Λ due due due
  catches : ∀ n ∈ block.catches, Λ n = none
  attemptOk : Ok attempt (Γ.set [f] (.special ⟨some v, due, Λ⟩)) Λ due (v :: due) (v :: due)
  lookup : env.lookup f = some v
  suits : ∀ x ∈ block.occurrences ++ attempt.occurrences, x ≠ f → (Γ x).Suits G V (env.lookup x)
  owned : Owned acts attempt.catches
  slot : store.slots[v]? = some .unbound
  view : ¬ V.vars v
  fresh : ∀ w r, G.vars w = some r → w < v

/-- What executing a statement leads to. -/
inductive Led (G : Tags) (V : View) (P : Nat → Mark → Due → Prop) (acts : List Activation)
    (rest : Stack) (caught due : Due) (s : Stmt) (env : Env) (σ : Session) :
    Except Interrupt Next → Session → Prop where
  | proceed {next σ' G' W stack acts' Λ' caught'} (hlater : Later G V σ G' W σ')
      (hon : next.onStack rest = .ok stack) (htyped : Typed G' W P acts' stack Λ' caught' due)
      (hlive : live stack.length acts' = live stack.length ((entering rest env s next).toList ++ acts))
      (hcalled : ∀ v r, (entering rest env s next).bind (·.callee) = some v → G.vars v = some r → r.final = none)
      (hbegins : beginning rest s next = none) :
      Led G V P acts rest caught due s env σ (.ok next) σ'
  | invoke {f w due' body env' Λ Λ'} (hs : s = .call f) (hf : env.lookup f = some w)
      (hdue : due = w :: due') (hrest : Typed G V P acts rest Λ caught due')
      (hcaught : due' = caught ∨ w :: due' <:+ caught)
      (hbody : ∀ P', Typed G V P' acts rest Λ caught due' → P' rest.length (.entered ⟨rest, body, some w⟩) due' → P' (rest.length + 1) .stmt due' → Typed G V P' (⟨rest, body, some w⟩ :: acts) (rest.push body env') Λ' due' due') :
      Led G V P acts rest caught due s env σ (.ok (.enter body env')) σ
  | opening {f v block attempt env' σ' Λ Γ} (hlater : Later G V σ G V σ')
      (hs : s = .scope [f] (.seq [.createProc [] block f, attempt, .call f]))
      (hopening : Opening G V P acts σ'.store rest Λ due f v block attempt env' Γ) : Led G V P
      acts rest caught due s env σ
      (.ok (.enter (.seq [.createProc [] block f, attempt, .call f]) env')) σ'
  | interrupt {e σ' G' W} (hlater : Later G V σ G' W σ') (he : e.Tame W) (hdue : due = caught) :
      Led G V P acts rest caught due s env σ (.error e) σ'

def Leads (G : Tags) (V : View) (P : Nat → Mark → Due → Prop) (acts : List Activation) (rest : Stack)
    (caught due : Due) (s : Stmt) (env : Env) (σ : Session) : Prop :=
  ∃ result σ', (Exec.stmt env s).run σ = (result, σ') ∧ Led G V P acts rest caught due s env σ result σ'

section

variable {P : Nat → Mark → Due → Prop} {Q : Due → Prop} {acts : List Activation}
  {rest stack : Stack} {Λ Λ' : Labels} {caught due due' caught' : Due} {Γ : Typing} {env vars : Env}

theorem Led.flow (hlater : Later G V σ G' W σ') (hon : next.onStack rest = .ok stack)
    (htyped : Typed G' W P acts stack Λ' caught' due) (hnone : entering rest env s next = none)
    (hbegins : beginning rest s next = none) :
  Led G V P acts rest caught due s env σ (.ok next) σ'
  := by
  refine .proceed hlater hon htyped ?_ ?_ hbegins
  · rw [hnone]
    rfl
  · rw [hnone]
    exact nofun

theorem Typed.later (h : Typed G V P acts rest Λ caught due) (hlater : Later G V σ G' W σ') :
  Typed G' W P acts rest Λ caught due
  := h.mono hlater.tags hlater.view fun _ _ _ _ => id

/-! ### Scopes -/

theorem suits_declare {r : Role} (hsuits : Suits G V Γ env (body.occurrences.filter (!names.contains ·)))
    (hnames : vars.map (·.1) = names)
    (hvars : ∀ b ∈ vars, if b.1 ∈ special then G.vars b.2 = some r else V.vars b.2) :
  Suits G V (Γ.declare names special r) (env.extend vars) body.occurrences
  := by
  refine hsuits.extend (fun x => by rw [hnames]) (fun x hx => declare_of_not_mem hx) ?_
  intro b hb
  have hmem : b.1 ∈ names := hnames ▸ mem_map_of_mem hb
  have hb := hvars b hb
  rw [Typing.declare, if_pos hmem]
  split
  next hspecial =>
    rw [if_pos hspecial] at hb
    exact ⟨b.2, rfl, hb⟩
  next hspecial =>
    rw [if_neg hspecial] at hb
    rintro _ ⟨⟩
    exact hb

theorem led_scope (hσ : Apart G V σ) (htop : Top G V P acts rest Λ caught due due' Γ (.scope names body) env)
    (hP : Admits G P Q rest.length due) :
  Leads G V P acts rest caught due (.scope names body) env σ
  := by
  obtain ⟨hrest, hok, hsuits, howned⟩ := htop
  rw [Ok] at hok
  split at hok
  case isFalse htry =>
    obtain ⟨-, special, hok⟩ := hok
    obtain ⟨vars, σ', G', W, hrun, hlater, hnames, hvars⟩ :=
      hσ.newVars (r := ⟨none, due, Λ⟩) names special rfl
    have hsuits := suits_declare (hsuits.mono hlater.tags hlater.view) hnames hvars
    have hbody := (hrest.later hlater).push hok hsuits howned (hP.stmt _ _ (Nat.lt_succ_self _) hP.here)
    refine ⟨_, σ', (hrun.run_bind _).trans rfl, .flow hlater rfl hbody rfl ?_⟩
    rw [beginning.eq_def]
    split
    case h_1 hs _ =>
      cases hs
      exact if_neg htry
    case h_2 => rfl
  case isTrue htry =>
    obtain ⟨f, block, body, name, handler, rfl, rfl, -⟩ := Stmt.isTry_iff.mp htry
    obtain ⟨rfl, rfl, hok⟩ := hok
    obtain ⟨hblock, hcatches, hattempt⟩ := hok σ.store.slots.size
    have hlater : Later G V σ G V (σ.withStore σ.store.newVar.2) :=
      hσ.withStore (hσ.tame.machine.store.newSlot .unbound trivial) (hσ.tagged.grown (.newSlot V _ .unbound)) G.le_refl
    have hrun : (Exec.newVars [f]).Returns σ [(f, σ.store.slots.size)]
        (σ.withStore σ.store.newVar.2) := rfl
    have hopening : Opening G V P acts (σ.withStore σ.store.newVar.2).store rest Λ
        due' f σ.store.slots.size block (.attempt body name handler)
        (env.extend [(f, σ.store.slots.size)]) Γ := by
      refine ⟨hrest.later hlater, htry, hblock, hcatches, hattempt, by simp [Env.extend], ?_, ?_, ?_, ?_, ?_⟩
      · intro x hx hne
        rw [Env.lookup_extend_of_not_mem (by simpa using hne)]
        refine hsuits x (mem_filter_contains.mpr ⟨?_, by simpa using hne⟩)
        simp only [Stmt.occurrences, Stmt.listOccurrences, mem_append] at hx ⊢
        rcases hx with hx | hx
        · exact .inl (.inl (by simpa using hx))
        · exact .inr (.inl hx)
      · intro n hn
        refine howned n ?_
        simp only [Stmt.catches, Stmt.listCatches, append_nil, Stmt.call]
        exact hn
      · simp [Store.newVar, Store.newSlot]
      · exact fun hview => Nat.lt_irrefl _ (hσ.tagged.shows.vars _ hview)
      · exact fun w r hw => hσ.tagged.lt_vars hw
    exact ⟨_, _, (hrun.run_bind _).trans rfl, .opening hlater rfl hopening⟩

/-! ### Statements that read values -/

section

variable (hσ : Apart G V σ) (htop : Top G V P acts rest Λ caught due due' Γ s env) (hreads : Γ.Values s.reads)
  (hcreated : ∀ params body, s.created? = some (params, body) →
    Definition.Plain ⟨params, body, Stmt.captured params body⟩) (hdue : due = caught)

include hσ htop hreads hcreated hdue

theorem led_aligned (hfollow : ∀ next σ' W, Later G V σ G W σ' → Follow W Definition.Plain env env s s next next →
      Led G V P acts rest caught due s env σ (.ok next) σ') :
  Leads G V P acts rest caught due s env σ
  := by
  have haligned : Aligned V Definition.Plain env env s s :=
    Exec.aligned_self ((htop.suits.subset s.reads_subset).sameVar hreads hσ.names) hcreated
  obtain ⟨result, σ', W, hrun, hσ', hgrown, hnext, herror⟩ := haligned.execute trivial hσ.tame.lax
  have hlater := hσ.later hσ'.tame hgrown.store hgrown.stack
  refine ⟨result, σ', hrun, ?_⟩
  cases result with
  | ok next => exact hfollow next σ' W hlater (hnext next rfl)
  | error e => exact .interrupt hlater (herror e rfl).1 hdue

theorem led_quiet (hdue' : due' = due) (hs : Exec.isQuiet s = true) :
  Leads G V P acts rest caught due s env σ
  := by
  refine led_aligned hσ htop hreads hcreated hdue ?_
  intro next _ W hlater hfollow
  obtain rfl : next = .rest := by cases hfollow <;> first | rfl | cases hs
  subst hdue'
  have hrest := htop.rest.later hlater
  cases s <;> first | exact .flow hlater rfl hrest rfl rfl | cases hs

end

theorem led_applied {callee : Option VarId} (hP : Admits G P Q rest.length due) (hrest : Typed G V P acts rest Λ due due)
    (hlater : Later G V σ G W σ') (h : Applied W Definition.Plain next)
    (hrests : entering rest env s .rest = none)
    (henters : ∀ body env', entering rest env s (.enter body env') = some ⟨rest, body, callee⟩)
    (hcallee : ∀ v r, callee = some v → G.vars v ≠ some r) (hbegins : beginning rest s next = none) :
  Led G V P acts rest due due s env σ (.ok next) σ'
  := by
  have hrest := hrest.later hlater
  cases h with
  | rest => exact .flow hlater rfl hrest hrests hbegins
  | @enter c args hc hargs _ =>
    obtain ⟨Γ, hΓ, hbody⟩ := hc.definition
    have hentered : Typed G W P (⟨rest, c.body, callee⟩ :: acts) rest .none due due :=
      .enter hrest nofun (fun n _ => .inl rfl) (.inl rfl)
        (hP.entered hrest rfl fun v hv ⟨r, hr, _⟩ => hcallee v r hv hr)
    have hsuits : Suits G W Γ (Env.extend [] (c.env ++ c.params.zip args)) c.body.occurrences := by
      refine suits_of_sealed hΓ fun b hb => ?_
      rw [Env.extend, append_nil, mem_reverse, mem_append] at hb
      exact hb.elim (hc.env b) fun hb => hargs b.2 (of_mem_zip hb).2
    have hpushed := hentered.push (hbody due) hsuits (fun n hn => ⟨⟨rest, c.body, callee⟩, rfl, hn⟩)
      (hP.stmt _ _ (Nat.lt_succ_self _) hP.here)
    refine .proceed hlater rfl hpushed ?_ ?_ hbegins
    · rw [henters]
      rfl
    · intro v r hv hr
      rw [henters] at hv
      exact absurd hr (hcallee v r hv)

/-! ### Procedures -/

theorem sealed_not_special (Γ : Typing) (params : List Ident) (x : Ident) (r : Role) :
  Γ.sealed params x ≠ .special r
  := by
  intro hr
  rw [Typing.sealed] at hr
  split at hr
  · cases hr
  · split at hr
    · cases hr
    next hnot => exact hnot r hr

theorem led_creates {target : Ident} (hσ : Apart G V σ)
    (htop : Top G V P acts rest Λ due due due' Γ s env) (hs : s.created? = some (params, body))
    (hreads : s.reads = body.occurrences.filter (!params.contains ·) ++ [target])
    (hquiet : Exec.isQuiet s = true) (htarget : (Γ target).IsValue) (hdue' : due' = due)
    (hbody : ∀ d, Ok body (Γ.sealed params) .none d d d) :
  Leads G V P acts rest due due s env σ
  := by
  refine led_quiet hσ htop ?_ ?_ rfl hdue' hquiet
  · intro x hx
    rw [hreads, mem_append, mem_filter_contains, mem_singleton] at hx
    rcases hx with ⟨hx, hparam⟩ | rfl
    · exact isValue_of_sealed hparam ((hbody due).not_absent x hx)
    · exact htarget
  · intro _ _ hs'
    cases hs.symm.trans hs'
    exact ⟨_, sealed_not_special Γ params, hbody⟩

theorem led_createProc {target : Ident} (hσ : Apart G V σ)
    (htop : Top G V P acts rest Λ caught due due' Γ (.createProc params body target) env) :
  Leads G V P acts rest caught due (.createProc params body target) env σ
  := by
  have hok := htop.ok
  obtain ⟨rfl, hok⟩ := hok
  have hsuits := htop.suits
  rw [Stmt.occurrences] at hsuits
  have htarget : (Γ target).Suits G V (env.lookup target) := hsuits target (by simp)
  split at hok
  case h_2 => cases hok
  case h_3 habsent hspecial _ =>
    refine led_creates hσ htop rfl rfl rfl ?_ hok.1 hok.2
    cases hk : Γ target with
    | plain | data => trivial
    | absent | special => simp_all
  case h_1 r hr =>
    obtain ⟨rfl, hfinal, hbody, hcatches⟩ := hok
    rw [hr] at htarget
    obtain ⟨v, hlookup, hv⟩ := htarget
    obtain ⟨result, σ', _, hrun, hlater, hresult⟩ := hσ.createProc hlookup hv hfinal hbody hcatches
      (hsuits.subset (subset_append_left _ _))
    refine ⟨result, σ', hrun, ?_⟩
    rcases hresult with rfl | ⟨e, rfl, he⟩
    · exact .flow hlater rfl (htop.rest.later hlater) rfl rfl
    · exact .interrupt hlater he rfl

theorem led_apply {proc : Operand} {args : List Operand} (hσ : Apart G V σ)
    (htop : Top G V P acts rest Λ caught due due' Γ (.apply proc args) env)
    (hP : Admits G P Q rest.length due) :
  Leads G V P acts rest caught due (.apply proc args) env σ
  := by
  obtain ⟨hvalues, happlies⟩ := htop.ok
  have hsuits := htop.suits
  rw [Stmt.occurrences] at hsuits
  have hargs := (hsuits.subset (subset_append_right _ _)).sameVar hvalues hσ.names
  -- a value of the program is applied
  have hplain (hproc : Γ.Values proc.idents) (hdue : due = caught) (hdue' : due' = due)
      (hcallee : ∀ v r, proc.var? env = some v → G.vars v ≠ some r) :
      Leads G V P acts rest caught due (.apply proc args) env σ := by
    subst hdue
    subst hdue'
    refine led_aligned hσ htop ?_ (by simp [Stmt.created?]) rfl ?_
    · intro x hx
      · exact (mem_append.mp hx).elim (hproc x) (hvalues x)
    · intro _ _ W hlater hfollow
      cases hfollow with
      | quiet h => cases h
      | apply h => exact led_applied hP htop.rest hlater h rfl (fun _ _ => rfl) hcallee rfl
  cases proc with
  | lit => exact hplain (by simp [Typing.Values, Operand.idents]) happlies.1 happlies.2 (by simp [Operand.var?])
  | ident f =>
    have hf : (Γ f).Suits G V (env.lookup f) := hsuits f (by simp [Operand.idents])
    rw [Typing.Applies] at happlies
    split at happlies
    case h_3 => cases happlies
    case h_2 hk =>
      refine hplain ?_ happlies.1 happlies.2 ?_
      · intro x hx
        rw [Operand.idents, mem_singleton] at hx
        rw [hx, hk]
        trivial
      · intro v r hv hr
        rw [hk] at hf
        exact (hσ.tagged.vars v r hr).1 (hf v hv)
    case h_1 r hk =>
      rw [hk] at hf
      obtain ⟨v, hlookup, hv⟩ := hf
      obtain ⟨rfl, rfl, hlabels, hcaught⟩ := happlies
      split at hcaught
      case isFalse hnone =>
        -- a procedure of a construct is applied
        have hfinal : r.final = none := Option.not_isSome_iff_eq_none.mp hnone
        rw [r.before_none hfinal] at hP ⊢
        subst hcaught
        obtain ⟨result, σ', W, hrun, hlater, hresult⟩ := hσ.apply hlookup hv hargs
        refine ⟨result, σ', hrun, ?_⟩
        rcases hresult with ⟨c, _, _, hplays, hvars, hlength, rfl⟩ | ⟨e, rfl, he⟩
        · have hentered : Typed G W P (⟨rest, c.body, some v⟩ :: acts) rest r.labels r.due r.due := by
            refine .enter (htop.rest.later hlater) hlabels (fun n hn => .inl (hplays.catches n hn)) (.inl rfl)
              (hP.entered htop.rest rfl ?_)
            rintro _ ⟨⟩ ⟨r', hr', hsome⟩
            cases hv.symm.trans hr'
            exact hnone hsome
          have hpushed := hentered.push hplays.ok (hplays.suits_args hvars hlength)
            (fun n hn => ⟨_, rfl, hn⟩) (hP.stmt _ _ (Nat.lt_succ_self _) hP.here)
          refine .proceed hlater rfl hpushed ?_ ?_ rfl
          · rw [entering, Operand.var?, hlookup]
            rfl
          · intro _ _ hv' hr'
            rw [entering, Operand.var?, hlookup] at hv'
            cases hv'
            cases hv.symm.trans hr'
            exact hfinal
        · exact .interrupt hlater he rfl
      case isTrue hsome =>
        -- a final part is called
        obtain ⟨w, hw⟩ := Option.isSome_iff_exists.mp hsome
        obtain rfl := hσ.tagged.finals v r w hv hw
        obtain ⟨rfl, hcaught⟩ := hcaught
        rw [r.before_some hw] at hcaught ⊢
        obtain ⟨c, _, hplays, hrun⟩ := hσ.callFinal hlookup hv hw
        have hlength : c.params.length = ([] : List VarId).length := by
          rw [hplays.params hsome]
          rfl
        have hbody (P' : Nat → Mark → Due → Prop) (hrest : Typed G V P' acts rest Λ caught r.due)
            (hentered : P' rest.length (.entered ⟨rest, c.body, some w⟩) r.due) :=
          (Typed.enter hrest hlabels (fun n hn => .inl (hplays.catches n hn))
            (hcaught.imp Eq.symm fun h => ⟨w, rfl, h⟩) hentered).push hplays.ok
            (hplays.suits_args (by simp) hlength) (fun n hn => ⟨_, rfl, hn⟩)
        exact ⟨_, σ, hrun, .invoke rfl hlookup rfl htop.rest (hcaught.imp_left Eq.symm) hbody⟩

/-! ### All statements -/

/-- What executing a statement on top of a stack that keeps the discipline leads to. -/
theorem led (hσ : Apart G V σ) (htop : Top G V P acts rest Λ caught due due' Γ s env)
    (hP : Admits G P Q rest.length due) :
  Leads G V P acts rest caught due s env σ
  := by
  have hself := hσ.later_self
  have hhere := hP.stmt (rest.length + 1) due (Nat.lt_succ_self _) hP.here
  have hsimple (hs : s.isSimple = true) (hquiet : Exec.isQuiet s = true)
      (hreads : s.reads = s.occurrences) (hcreated : s.created? = none) :
      Leads G V P acts rest caught due s env σ := by
    obtain ⟨hvalues, hdue, hdue'⟩ := (ok_simple_iff hs).mp htop.ok
    exact led_quiet hσ htop (hreads ▸ hvalues) (by simp [hcreated]) hdue hdue' hquiet
  cases s with
  | scope => exact led_scope hσ htop hP
  | createProc => exact led_createProc hσ htop
  | apply => exact led_apply hσ htop hP
  | bind | binary | negate | get | set | select | createRecord | createTuple =>
    exact hsimple rfl rfl rfl rfl
  | skip | jumpCatch =>
    exact ⟨_, σ, rfl, .flow hself rfl (htop.ok.2 ▸ htop.rest) rfl rfl⟩
  | seq =>
    obtain ⟨-, _, hchain⟩ := htop.ok
    obtain ⟨hcaught, hdue'⟩ := htop.rest.forall_due (fun height _ => hP.all height) hP.nil
    have hall := (htop.rest.pushAll hchain htop.suits htop.owned hP.stmt hP.suffix hcaught hP.here hdue').1
    exact ⟨_, σ, rfl, .flow hself rfl hall rfl rfl⟩
  | attempt body name handler =>
    obtain ⟨-, rfl, hcatches, hbody, hhandler⟩ := htop.ok
    have hsuits := htop.suits
    have howned := htop.owned
    have hframe : Typed G V P acts (.handler name handler env :: rest) Λ due' due' := by
      refine .handler htop.rest hhandler ?_ hcatches (hP.handler _ (Nat.lt_succ_self _))
      have hsub : handler.occurrences.filter (! [name].contains ·) ⊆
          body.occurrences ++ handler.occurrences.filter (· != name) := by
        intro x hx
        rw [mem_filter_contains] at hx
        simpa using .inr ⟨hx.1, by simpa using hx.2⟩
      exact hsuits.subset hsub
    have hpushed := hframe.push hbody (hsuits.subset (subset_append_left _ _))
      (fun n hn => howned n (mem_append_left _ hn))
      (hP.stmt _ _ (Nat.lt_succ_of_lt (Nat.lt_succ_self _)) hP.here)
    exact ⟨_, σ, rfl, .flow hself rfl hpushed rfl rfl⟩
  | throw =>
    obtain ⟨hvalues, hdue⟩ := htop.ok
    refine led_aligned hσ htop hvalues (by simp [Stmt.created?]) hdue ?_
    intro _ _ W _ hfollow
    cases hfollow with
    | quiet h => cases h
  | jumpThrow =>
    obtain ⟨_, acts', _, _, hunwind, hbelow, hlanded⟩ := htop.rest.jump htop.ok
    obtain ⟨_, rfl, hdropped⟩ := hlanded.dropped
    refine ⟨_, σ, rfl, .proceed hself ?_ hbelow ?_ (fun _ _ h => by cases h) rfl⟩
    · rw [Next.onStack, hunwind]
    · exact (live_append hdropped acts').symm
  | createActor =>
    obtain ⟨hdue, hdue', htarget, hbody⟩ := htop.ok
    subst hdue
    exact led_creates hσ htop rfl rfl rfl htarget hdue' hbody
  | selectApply =>
    obtain ⟨hvalues, rfl, rfl⟩ := (ok_simple_iff rfl).mp htop.ok
    refine led_aligned hσ htop hvalues (by simp [Stmt.created?]) rfl ?_
    intro _ _ W hlater hfollow
    cases hfollow with
    | quiet h => cases h
    | selectApply h =>
      exact led_applied hP htop.rest hlater h rfl (fun _ _ => rfl) (by simp) rfl
  | ifElse cond yes no =>
    obtain ⟨hvalues, hdue, hyes, hno⟩ := htop.ok
    have hsuits := htop.suits
    have howned := htop.owned
    refine led_aligned hσ htop hvalues (by simp [Stmt.created?]) hdue ?_
    intro _ _ W hlater hfollow
    have hrest := htop.rest.later hlater
    have hsuits := hsuits.mono hlater.tags hlater.view
    cases hfollow with
    | quiet h => cases h
    | yes =>
      have hsub : yes.occurrences ⊆ cond.idents ++ yes.occurrences ++ no.occurrences := by
        intro x hx
        simp [hx]
      exact .flow hlater rfl (hrest.push hyes (hsuits.subset hsub)
        (fun n hn => howned n (mem_append_left _ hn)) hhere) rfl rfl
    | no =>
      exact .flow hlater rfl (hrest.push hno (hsuits.subset (subset_append_right _ _))
        (fun n hn => howned n (mem_append_right _ hn)) hhere) rfl rfl
  | cases =>
    obtain ⟨hvalues, hdue, hyes, hno⟩ := htop.ok
    have hsuits := htop.suits
    have howned := htop.owned
    refine led_aligned hσ htop hvalues (by simp [Stmt.created?]) hdue ?_
    intro _ _ W hlater hfollow
    have hrest := htop.rest.later hlater
    have hsuits := hsuits.mono hlater.tags hlater.view
    cases hfollow with
    | quiet h => cases h
    | matched h =>
      have hyesSuits := (hsuits.subset (subset_append_left _ _)).subset (subset_append_right _ _)
      exact .flow hlater rfl (hrest.push hyes (hyesSuits.extend_plain h.names h.inView)
        (fun n hn => howned n (mem_append_left _ hn)) hhere) rfl rfl
    | unmatched =>
      exact .flow hlater rfl (hrest.push hno (hsuits.subset (subset_append_right _ _))
        (fun n hn => howned n (mem_append_right _ hn)) hhere) rfl rfl

end

end Control

end ActorLang
