import ActorLang.Compile
import ActorLang.Proofs.Control.Jumps
import ActorLang.Proofs.Surface.Proper
import ActorLang.Proofs.Surface.Scope

/-!
# Programs keep the discipline

The statement of a program that has been read keeps the discipline of jumps and final parts.
-/

namespace ActorLang

open Kernel (Ident Operand Stmt resultIdent)
open List
open Lowering

namespace Control

/-! ### Expressions -/

/-- What is lowered from an expression keeps the discipline where its free names stand for values,
also as the start of a path. -/
structure Sane (e : Expr) : Prop where
  disciplined : Disciplined e.free (ofExpr e)
  declares : ∀ x ∈ e.declares, Written x
  path : ∀ path, Kernel.operandIdents path = [] →
    Disciplined e.free (alongPath e path).1 ∧ Kernel.operandIdents (alongPath e path).2 = []

theorem Sane.within {e : Expr} {F : List Ident} (h : Sane e) (hF : e.free ⊆ F) :
  Disciplined F (ofExpr e)
  := h.disciplined.mono hF

theorem Sane.both {left right : Expr} (hleft : Sane left) (hright : Sane right) :
  Disciplined (left.free ++ right.free) (ofExpr left) ∧ Disciplined (left.free ++ right.free) (ofExpr right)
  := ⟨hleft.within (subset_append_left _ _), hright.within (subset_append_right _ _)⟩

section

variable {span : Span} {form : Form}

theorem sane_of_disciplined (h : Disciplined form.free (ofForm span form))
    (hdeclares : ∀ x ∈ (Expr.mk span form).declares, Written x := by
      simp [Expr.declares, Expr.form])
    (hform : ∀ record feature, form ≠ .select record feature := by simp) :
  Sane (.mk span form)
  := by
  refine ⟨h, hdeclares, fun path hpath => ?_⟩
  rw [alongPath_eq hform]
  exact ⟨h, hpath⟩

theorem sane_of_into {into : Target → Lower Stmt} (h : ofForm span form = { into })
    (hinto : ∀ target, Delivers form.free (into target) target)
    (hdeclares : ∀ x ∈ (Expr.mk span form).declares, Written x := by
      simp [Expr.declares, Expr.form])
    (hform : ∀ record feature, form ≠ .select record feature := by simp) :
  Sane (.mk span form)
  := sane_of_disciplined (h ▸ ⟨by simp, hinto⟩) hdeclares hform

theorem sane_of_discard {x : Lower Stmt} (h : ofForm span form = { into := fun _ => x })
    (hx : Delivers form.free x .discard)
    (hdeclares : ∀ x ∈ (Expr.mk span form).declares, Written x := by
      simp [Expr.declares, Expr.form])
    (hform : ∀ record feature, form ≠ .select record feature := by simp) :
  Sane (.mk span form)
  := sane_of_into h (fun target => hx.of_discard target) hdeclares hform

end

section Parts

variable {F : List Ident} {body : List Expr}

theorem disciplined_ofList (h : ∀ e ∈ body, Sane e) (hF : freeList body ⊆ F) :
  ∀ p ∈ ofList body, Disciplined F p
  := by
  intro p hp
  obtain ⟨e, he, hp⟩ := mem_parts rfl (fun _ _ => rfl) hp
  exact mem_singleton.mp hp ▸ (h e he).within (Subset.trans (free_subset_freeList he) hF)

theorem disciplined_ofOption {o : Option Expr} (h : ∀ e ∈ o, Sane e) (hF : freeOption o ⊆ F) :
  ∀ p ∈ ofOption o, Disciplined F p
  := by
  intro p hp
  obtain ⟨e, he, rfl⟩ := mem_ofOption hp
  exact (h e he).within (Subset.trans (free_subset_freeOption he) hF)

theorem disciplined_block (h : ∀ e ∈ body, Sane e) (hF : without (freeList body) (declaredNames body) ⊆ F) :
  DisciplinedBlock F (block body (ofList body))
  := by
  refine ⟨fun x hx => ?_, disciplined_ofList h ?_⟩
  · obtain ⟨e, he, hx⟩ := mem_flatMap.mp (mem_eraseDups.mp hx)
    exact (h e he).declares x hx
  · exact Subset.trans (subset_append_without _ _) (subset_append_append hF)

theorem disciplined_block_params {params : List Ident} (h : ∀ e ∈ body, Sane e)
    (hF : without (freeList body) (declaredNames body ++ params) ⊆ F) :
  DisciplinedBlock (params ++ F) (block body (ofList body))
  := by
  apply disciplined_block h
  intro x hx
  obtain ⟨hfree, hdeclared⟩ := mem_without.mp hx
  rw [mem_append]
  by_cases hparams : x ∈ params
  · exact .inl hparams
  · exact .inr (hF (mem_without.mpr ⟨hfree, by simp [hdeclared, hparams]⟩))

theorem disciplined_ofOtherwise {o : Option (List Expr)} (h : ∀ body ∈ o, ∀ e ∈ body, Sane e)
    (hF : freeOtherwise o ⊆ F) :
  ∀ b ∈ ofOtherwise o, DisciplinedBlock F b
  := by
  intro b hb
  obtain ⟨body, hbody, rfl⟩ := mem_ofOtherwise hb
  cases hbody
  exact disciplined_block (h body rfl) hF

theorem written_captured {p : Pattern} (hp : ∀ u ∈ p.uses, Written u.name) :
  ∀ x ∈ captured p.uses, Written x
  := by
  intro x hx
  obtain ⟨u, hu, hcapture⟩ := mem_filterMap.mp hx
  cases u <;> cases hcapture
  exact hp _ hu

theorem written_namesRead {p : Pattern} (hp : ∀ u ∈ p.uses, Written u.name) :
  ∀ x ∈ namesRead p.uses, Written x
  := by
  intro x hx
  obtain ⟨u, hu, hread⟩ := mem_filterMap.mp hx
  cases u <;> cases hread
  all_goals exact hp _ hu

theorem disciplined_clause {p : Pattern} {guard : Option Expr} (hp : p.Proper)
    (hguard : ∀ e ∈ guard, Sane e) (hbody : ∀ e ∈ body, Sane e)
    (hF : (Clause.mk p guard body).free ⊆ F) :
  DisciplinedAlternative F ⟨p, ofOption guard, block body (ofList body)⟩
  := by
  obtain ⟨hreads, hrest⟩ := append_subset.mp hF
  have hinner : freeOption guard ++ without (freeList body) (declaredNames body) ⊆ captured p.uses ++ F :=
    Subset.trans (subset_append_without _ _) (subset_append_append hrest)
  obtain ⟨hguardfree, hbodyfree⟩ := append_subset.mp hinner
  exact ⟨written_captured hp, fun x hx => ⟨hreads hx, written_namesRead hp x hx⟩,
    disciplined_ofOption hguard hguardfree, disciplined_block hbody hbodyfree⟩

theorem disciplined_ofClauses {clauses : List Clause}
    (hpatterns : ∀ p guard body, .mk p guard body ∈ clauses → p.Proper)
    (hguards : ∀ p guard body, .mk p (some guard) body ∈ clauses → Sane guard)
    (hbodies : ∀ p guard body, .mk p guard body ∈ clauses → ∀ e ∈ body, Sane e)
    (hF : freeClauses clauses ⊆ F) :
  ∀ alt ∈ ofClauses clauses, DisciplinedAlternative F alt
  := by
  intro _ halt
  obtain ⟨⟨_, _, _⟩, hmem, halt⟩ := mem_parts rfl (by rintro ⟨_, _, _⟩ _; rfl) halt
  obtain rfl := mem_singleton.mp halt
  refine disciplined_clause (hpatterns _ _ _ hmem) ?_ (hbodies _ _ _ hmem)
    (Subset.trans (free_subset_freeClauses hmem) hF)
  rintro e ⟨⟩
  exact hguards _ _ _ hmem

theorem disciplined_ofHandlers (kind : HandlerKind) {items : List ActorItem}
    (hpatterns : ∀ k p guard body, .handler k (.mk p guard body) ∈ items → p.Proper)
    (hguards : ∀ k p guard body, .handler k (.mk p (some guard) body) ∈ items → Sane guard)
    (hbodies : ∀ k p guard body, .handler k (.mk p guard body) ∈ items → ∀ e ∈ body, Sane e)
    (hF : freeItems items ⊆ F) :
  ∀ alt ∈ ofHandlers kind items, DisciplinedAlternative F alt
  := by
  intro _ halt
  obtain ⟨k, p, _, _, hmem, rfl⟩ := mem_ofHandlers halt
  refine disciplined_clause (hpatterns _ _ _ _ hmem) ?_ (hbodies _ _ _ _ hmem)
    (Subset.trans (free_subset_freeItems hmem) hF)
  rintro e ⟨⟩
  exact hguards _ _ _ _ hmem

end Parts

theorem ofClauses_ne_nil {clauses : List Clause} (h : clauses ≠ []) :
  ofClauses clauses ≠ []
  := by
  cases clauses with
  | nil => exact absurd rfl h
  | cons clause =>
    obtain ⟨p, _, _⟩ := clause
    simp [ofClauses]

theorem sane_select {span : Span} {record feature : Expr} (hrecord : Sane record) (hfeature : Sane feature) :
  Sane (.mk span (.select record feature))
  := by
  have hF : record.free ⊆ record.free ++ feature.free := subset_append_left _ _
  have hwhole : Disciplined (record.free ++ feature.free) (ofForm span (.select record feature)) := by
    obtain ⟨hp, hq⟩ := hrecord.both hfeature
    exact ⟨by simp [ofForm], fun target => delivers_binary target hp hq (fun _ _ _ => rfl) fun _ _ _ => rfl⟩
  refine ⟨hwhole, by simp [Expr.declares, Expr.form], fun path hpath => ?_⟩
  obtain ⟨_, form⟩ := feature
  cases form with
  | lit value =>
    rw [alongPath]
    obtain ⟨hbase, hnames⟩ := hrecord.path (.lit value :: path) hpath
    exact ⟨hbase.mono hF, hnames⟩
  | _ =>
    rw [alongPath]
    · exact ⟨hwhole, hpath⟩
    · simp

theorem sane_of_proper {e : Expr} (h : e.Proper) :
  Sane e
  := by
  induction h with
  | lit => exact sane_of_disciplined (atom_disciplined (forall_mem_nil _))
  | ident _ hname =>
    refine sane_of_disciplined (atom_disciplined (forall_mem_singleton.mpr ⟨?_, hname⟩))
    exact mem_singleton_self _
  | record _ _ _ _ ihlabel ihfeatures ihvalues =>
    refine sane_of_into rfl fun target => ?_
    apply delivers_record target (disciplined_ofOption ihlabel (subset_append_left _ _))
    intro f hf
    obtain ⟨g, hg, hf⟩ := mem_parts rfl (fun _ _ => rfl) hf
    obtain rfl := mem_singleton.mp hf
    obtain ⟨hfeature, hvalue⟩ := append_subset.mp (Subset.trans (free_subset_freeFields hg) (subset_append_right _ _))
    exact ⟨(ihfeatures g hg).within hfeature, (ihvalues g hg).within hvalue⟩
  | tuple _ _ _ ihlabel ihvalues =>
    exact sane_of_into rfl fun target =>
      delivers_tuple target (disciplined_ofOption ihlabel (subset_append_left _ _))
        (disciplined_ofList ihvalues (subset_append_right _ _))
  | binary _ op _ _ ihleft ihright =>
    refine sane_of_into rfl fun target => ?_
    obtain ⟨hp, hq⟩ := ihleft.both ihright
    cases op.prim? with
    | some => exact delivers_binary target hp hq (fun _ _ _ => rfl) fun _ _ _ => rfl
    | none => exact delivers_shortCircuit target hp hq
  | unary _ op h ih =>
    cases op with
    | not => exact sane_of_into rfl fun target => delivers_not target ih.disciplined
    | negate =>
      exact sane_of_into rfl fun target =>
        delivers_unary target ih.disciplined (fun _ _ => rfl) fun _ _ => rfl
  | content _ h ih =>
    exact sane_of_into rfl fun target =>
      delivers_unary target ih.disciplined (fun _ _ => rfl) fun _ _ => rfl
  | select _ _ _ ihrecord ihfeature => exact sane_select ihrecord ihfeature
  | apply _ _ _ ihproc ihargs =>
    exact sane_of_into rfl fun target => delivers_apply target
      (ihproc.within (subset_append_left _ _)) (disciplined_ofList ihargs (subset_append_right _ _))
  | selectApply _ name _ _ ihrecord ihargs =>
    obtain ⟨hbase, hpath⟩ := ihrecord.path [.lit (.str name)] rfl
    refine sane_of_into rfl fun target => delivers_selectApply target
      (hbase.mono (subset_append_left _ _)) ?_ (disciplined_ofList ihargs (subset_append_right _ _))
    rw [hpath]
    exact forall_mem_nil _
  | @var _ _ hnames _ ihvalues =>
    refine sane_of_discard rfl ?_ ?_
    · apply delivers_initialValues
      intro d hd
      obtain ⟨_, _, hmem, rfl⟩ := mem_ofDecls hd
      obtain ⟨hname, hvalue⟩ := cons_subset.mp (free_subset_freeDecls hmem)
      exact ⟨forall_mem_singleton.mpr ⟨hname, hnames _ _ hmem⟩, (ihvalues _ _ hmem).within hvalue⟩
    · rw [Expr.declares, Expr.form, forall_mem_map]
      rintro ⟨_, _⟩ hmem
      exact hnames _ _ hmem
  | unify _ _ _ ihleft ihright =>
    obtain ⟨hp, hq⟩ := ihleft.both ihright
    exact sane_of_discard rfl (delivers_unify hp hq)
  | assign _ _ _ ihcell ihvalue =>
    obtain ⟨hp, hq⟩ := ihcell.both ihvalue
    exact sane_of_discard rfl (delivers_assign hp hq)
  | @func _ name _ _ hname _ ihbody | @proc _ name _ _ hname _ ihbody =>
    rw [forall_mem_append] at hname
    refine sane_of_into rfl (fun target => delivers_procedure target (fun x hx => ?_)
      (disciplined_block_params ihbody (subset_append_right _ _))) ?_
    · exact ⟨mem_append_left _ hx, hname.1 x hx⟩
    · cases name with
      | none => simp [Expr.declares, Expr.form]
      | some => simpa [Expr.declares, Expr.form] using hname.1
  | block _ _ ihbody =>
    exact sane_of_into rfl fun target => (disciplined_block ihbody (Subset.refl _)).into target
  | ifElse _ _ _ _ ihconds ihbodies ihotherwise =>
    refine sane_of_into rfl fun target => ?_
    apply delivers_conditional target _ (disciplined_ofOtherwise ihotherwise (subset_append_right _ _))
    intro b hb
    obtain ⟨_, _, hmem, rfl⟩ := mem_ofBranches hb
    obtain ⟨hcond, hbody⟩ := append_subset.mp (Subset.trans (free_subset_freeBranches hmem) (subset_append_left _ _))
    exact ⟨(ihconds _ _ hmem).within hcond, disciplined_block (ihbodies _ _ hmem) hbody⟩
  | cases _ harg hclauses hpatterns _ _ hotherwise iharg ihguards ihbodies ihotherwise =>
      obtain ⟨hboth, hotherwise⟩ := append_subset.mp (Subset.refl (Form.free (.cases _ _ _)))
      obtain ⟨harg, hclausesfree⟩ := append_subset.mp hboth
      exact sane_of_into rfl fun target => delivers_cases target (iharg.within harg)
        (ofClauses_ne_nil hclauses) (disciplined_ofClauses hpatterns ihguards ihbodies hclausesfree)
        (disciplined_ofOtherwise ihotherwise hotherwise)
  | whileLoop _ _ _ ihcond ihbody =>
    exact sane_of_discard rfl (delivers_whileLoop (ihcond.within (subset_append_left _ _))
      (disciplined_block ihbody (subset_append_right _ _)))
  | forLoop _ hname _ _ ihiter ihbody =>
    exact sane_of_discard rfl (delivers_forLoop hname (ihiter.within (subset_append_left _ _))
      (disciplined_block_params ihbody (subset_append_right _ _)))
  | attempt _ _ hpatterns _ _ _ ihbody ihguards ihbodies ihfinal =>
    obtain ⟨hboth, hfinalfree⟩ := append_subset.mp (Subset.refl (Form.free (.attempt _ _ _)))
    obtain ⟨hbodyfree, hcatchesfree⟩ := append_subset.mp hboth
    exact sane_of_into rfl fun target => delivers_attempt target (disciplined_block ihbody hbodyfree)
      (disciplined_ofClauses hpatterns ihguards ihbodies hcatchesfree)
      (disciplined_ofOtherwise ihfinal hfinalfree)
  | throw _ h ih =>
    exact sane_of_discard rfl (delivers_throwValue ih.disciplined)
  | ret _ h ih =>
    exact sane_of_discard rfl (delivers_returnValue (disciplined_ofOption ih (Subset.refl _)))
  | brk | cont => exact sane_of_discard rfl delivers_leaveLoop
  | skip => exact sane_of_discard rfl (Sound.pure fun _ _ _ _ _ _ _ _ _ => .nil)
  | @actor _ name params items hname _ hpatterns _ _ ihsentences ihguards ihbodies =>
    rw [forall_mem_cons] at hname
    have hitems : freeItems items ⊆ declaredNames (ActorItem.sentences items) ++
        (params ++ (Form.actor name params items).free) := by
      rw [← append_assoc]
      exact Subset.trans (subset_append_without _ _) (subset_append_append (subset_cons_self _ _))
    refine sane_of_into rfl (fun target => delivers_actor target
      (forall_mem_singleton.mpr ⟨mem_cons_self .., hname.1⟩) (fun p hp => ?_)
      (disciplined_ofHandlers .ask hpatterns ihguards ihbodies hitems)
      (disciplined_ofHandlers .tell hpatterns ihguards ihbodies hitems)) ?_
    · obtain ⟨e, he, rfl⟩ := mem_ofSentences hp
      exact (ihsentences e he).within (Subset.trans (free_subset_freeItems he) hitems)
    · simpa [Expr.declares, Expr.form] using hname.1

/-! ### Programs -/

theorem mapError_eq_ok {ε ε' α : Type} {x : Except ε α} {f : ε → ε'} {a : α} (h : x.mapError f = .ok a) :
  x = .ok a
  := by
  cases x with
  | error => cases h
  | ok => exact congrArg Except.ok (Except.ok.inj h)

theorem except_bind_eq_ok {ε α β : Type} {x : Except ε α} {f : α → Except ε β} {b : β} (h : x >>= f = .ok b) :
  ∃ a, x = .ok a ∧ f a = .ok b
  := by
  cases x with
  | error => cases h
  | ok a => exact ⟨a, rfl, h⟩

theorem proper_of_ofSource {source : String} {p : Program} (h : Program.ofSource source = .ok p) :
  ∀ e ∈ p.body, e.Proper
  := by
  obtain ⟨_, htokens, h⟩ := except_bind_eq_ok h
  exact proper_of_ofTokens (tokensFrom_spelled (mapError_eq_ok htokens)) (mapError_eq_ok h)

theorem target_programResult :
  ∀ x ∈ targetNames (.ident Kernel.programResult), ∀ k, x ≠ tempName k
  := by
  intro x hx k h
  obtain rfl := mem_singleton.mp hx
  have h := congrArg String.toList h
  simp [tempName, Kernel.programResult] at h

/-- Where the names in `F` stand for values and no catch can be reached, what is lowered from the
start is steady, whatever is due. -/
theorem steady_of_delivers {F : List Ident} {x : Lower Stmt} {target : Target} {s : Stmt} {c : Context}
    {Γ : Typing} (hx : Delivers F x target) (htarget : ∀ t ∈ targetNames target, ∀ k, t ≠ tempName k)
    (hrun : x {} = .ok (s, c)) (hΓ : Γ.Plain F) (husable : Usable Γ target) (due : Due) :
  Steady Γ .none due s.elements
  := by
  have hnumbered : Numbered {} := ⟨by simp [labelsOf], by simp [labelsOf], by simp [namesOf]⟩
  obtain ⟨hadvances, hkeeps⟩ := hx hnumbered (fun t ht k _ => htarget t ht k) hrun
  have hcompletes : Completes c [] := by
    refine ⟨?_, by simp [labelsOf], by simp [namesOf]⟩
    rw [forall₂_nil_left_iff.mp hadvances.frames]
    exact .nil
  exact hkeeps hcompletes (.nil due) hΓ (forall_mem_nil _) husable

theorem mem_of_delivers {F : List Ident} {x : Lower Stmt} {target : Target} {s : Stmt} {c : Context}
    (hx : Delivers F x target) (htarget : ∀ t ∈ targetNames target, ∀ k, t ≠ tempName k)
    (hrun : x {} = .ok (s, c)) :
  ∀ z ∈ s.occurrences, z ∈ targetNames target ∨ z ∈ F ∧ Written z
  := by
  intro z hz
  by_contra hnot
  let Γ : Typing := fun y => if y = z then .absent else .plain
  have hplain {y : Ident} (hy : y ∈ targetNames target ∨ y ∈ F ∧ Written y) : Γ y = .plain := by
    apply if_neg
    rintro rfl
    exact hnot hy
  have husable : Usable Γ target := by
    cases target with
    | discard => trivial
    | ident t => exact isValue_of_plain (hplain (.inl (mem_singleton_self t)))
  have hsteady := steady_of_delivers hx htarget hrun (fun y hy hw => hplain (.inr ⟨hy, hw⟩)) husable []
  exact hsteady.ok.not_absent z hz (if_pos rfl)

theorem delivers_program {p : Program} (hp : ∀ e ∈ p.body, e.Proper) (target : Target) :
  Delivers (without (freeList p.body) (declaredNames p.body)) ((block p.body (ofList p.body)).into target) target
  := (disciplined_block (fun e he => sane_of_proper (hp e he)) (Subset.refl _)).into target

/-- Where all names stand for values and no catch can be reached, the statement of a program is
steady, whatever is due. -/
theorem steady_of_compile {source : String} {target : Target} {s : Stmt}
    (htarget : ∀ x ∈ targetNames target, ∀ k, x ≠ tempName k)
    (h : compile source target = .ok s) (due : Due) :
  Steady (fun _ => .plain) .none due s.elements
  := by
  obtain ⟨p, hp, h⟩ := except_bind_eq_ok h
  obtain ⟨⟨_, c⟩, hrun, hs⟩ := except_bind_eq_ok (mapError_eq_ok h)
  cases hs
  apply steady_of_delivers (delivers_program (proper_of_ofSource hp) target) htarget hrun fun _ _ _ => rfl
  cases target <;> trivial

end Control

end ActorLang
