import ActorLang.Proofs.Control.Functions
import ActorLang.Proofs.Pattern.Chain

/-!
# Alternatives keep the discipline

An alternative that fails calls a procedure for what is left.  Its name has the role of the place
where the alternatives stand.
-/

namespace ActorLang

open Kernel (Ident Operand Stmt resultIdent messageIdent)
open List
open Lowering

variable {otherwise : Option Block} {fallback : Fallback} {x t : Ident}
  {yes no failed guarded body s : Stmt} {clauses alts rest : List Alternative}

namespace Control

variable {Γ : Typing} {Λ : Labels} {due : Due} {F old names params : List Ident}
  {arg : Operand} {c c' : Context} {frames : List JumpFrame} {target : Target} {k : Kind}

theorem delivers_conditional {branches : List (Phrase × Block)}
    (target : Target) (hbranches : ∀ b ∈ branches, Disciplined F b.1 ∧ DisciplinedBlock F b.2)
    (hotherwise : ∀ b ∈ otherwise, DisciplinedBlock F b) :
  Delivers F (conditional branches otherwise target) target
  := by
  induction branches with
  | nil =>
    cases otherwise with
    | some b => exact (hotherwise b rfl).into target
    | none => exact Sound.pure fun _ _ _ _ _ _ _ _ _ => .nil
  | cons _ _ ih =>
    rw [forall_mem_cons] at hbranches
    apply hbranches.1.1.operand.bind
    rintro ⟨_, _⟩
    apply (hbranches.1.2.into target).bind
    intro _
    apply (ih hbranches.2).bind
    intro _
    apply Sound.pure
    intro _ _ hno hyes hsetup
    refine hsetup.finish ?_ (Nat.le_refl 1)
    intro Γ _ _ hfits hplain hcond husable
    have hnone : ∀ x ∈ ([] : List Ident), Γ x = .plain := forall_mem_nil _
    exact .ifElse (values_of_plain hcond) (hyes hfits hplain hnone husable) (hno hfits hplain hnone husable)

/-- The names that a fallback uses. -/
def fallbackNames : Fallback → List Ident
  | .rethrow name => [name]
  | .notHandled _ => [messageIdent]
  | _ => []

theorem sound_fallback (target : Target) (h : ∀ b, fallback = .block b → DisciplinedBlock F b) :
  Sound (fallback.into target) (fun s frames =>
    Keeps frames F (fallbackNames fallback) target s.elements) (targetNames target)
  := by
  cases fallback with
  | skip => exact Sound.pure fun _ _ _ _ _ _ _ _ _ => .nil
  | block b => exact (h b rfl).into target
  | rethrow =>
    apply Sound.pure
    intro _ _ _ _ _ _ _ hname _
    apply Steady.single rfl rfl
    exact ⟨values_of_plain hname, rfl⟩
  | notHandled =>
    apply Sound.freshTemp.bind
    intro error
    apply Sound.pure
    intro _ _ _ Γ _ _ _ _ hmessage _
    have herror := values_singleton (isValue_of_plain (set_of_mem (Γ := Γ) (mem_singleton_self error)))
    apply Steady.within (not_isTry_of_simple rfl rfl)
    apply Steady.ofList
    apply Steady.flatMap
    rw [forall_mem_cons, forall_mem_singleton]
    constructor
    · apply Steady.simple rfl
      apply values_append (values_singleton _) herror
      rw [Typing.set, hmessage _ (mem_singleton_self _), ite_self]
      trivial
    · exact Steady.single rfl rfl ⟨herror, rfl⟩

/-! ### Patterns -/

section Patterns

variable {p : Pattern} {root : Kernel.Pattern} {children : List ChildPattern}

theorem use_of_lowered (h : p.lower c = .ok ((root, children), c')) {u : NameUse}
    (hu : u ∈ root.uses ++ childUses children) :
  u ∈ p.uses ∨ ∃ x, u = .capture x ∧ Generated c.next c'.next x
  := by
  obtain ⟨-, _, -, hgenerated, hperm⟩ := accounts_lower h
  rcases mem_append.mp (hperm.mem_iff.mp hu) with hu | hu
  · exact .inl hu
  · obtain ⟨x, hx, rfl⟩ := mem_map.mp hu
    exact .inr ⟨x, rfl, hgenerated x hx⟩

/-- A lowered pattern captures what is captured as written, and generated names; it reads what is
read as written. -/
structure Flattened (p : Pattern) (root : Kernel.Pattern) (children : List ChildPattern) : Prop where
  args : ArgsKnown (captured root.uses) children
  covers : captured p.uses ⊆ captured (root.uses ++ childUses children)
  reads : namesRead (root.uses ++ childUses children) ⊆ namesRead p.uses

theorem flattened_lower (hrun : p.lower c = .ok ((root, children), c')) :
  Flattened p root children ∧ ∀ x ∈ captured (root.uses ++ childUses children),
    x ∈ captured p.uses ∨ Generated c.next c'.next x
  := by
  obtain ⟨-, _, -, -, hperm⟩ := accounts_lower hrun
  refine ⟨⟨argsKnown_lower hrun, ?_, ?_⟩, ?_⟩
  · intro x hx
    obtain ⟨u, hu, hcapture⟩ := mem_filterMap.mp hx
    exact mem_filterMap.mpr ⟨u, hperm.mem_iff.mpr (mem_append_left _ hu), hcapture⟩
  · intro x hx
    obtain ⟨u, hu, hread⟩ := mem_filterMap.mp hx
    rcases use_of_lowered hrun hu with hu | ⟨_, rfl, -⟩
    · exact mem_filterMap.mpr ⟨u, hu, hread⟩
    · cases hread
  · intro x hx
    obtain ⟨u, hu, hcapture⟩ := mem_filterMap.mp hx
    rcases use_of_lowered hrun hu with hu | ⟨_, rfl, hgenerated⟩
    · exact .inl (mem_filterMap.mpr ⟨u, hu, hcapture⟩)
    · cases hcapture
      exact .inr hgenerated

variable (hp : ∀ x ∈ captured p.uses, Written x)

include hp

theorem sound_pattern :
  Sound p.lower (fun r frames => Flattened p r.1 r.2 ∧ ∀ x ∈ captured (r.1.uses ++ childUses r.2), Outside frames x) old
  := by
  rintro c _ ⟨_, _⟩ hc - hrun
  have hframes := frames_lower hrun
  obtain ⟨hflattened, hnames⟩ := flattened_lower hrun
  refine ⟨hc.advances_next (accounts_lower hrun).le hframes, ?_⟩
  intro frames hcompletes
  refine ⟨hflattened, fun x hx => ?_⟩
  rcases hnames x hx with hx | ⟨n, hlow, hhigh, rfl | rfl⟩
  · exact Named.written hcompletes.names (hp x hx)
  · have hfresh : Fresh frames [] (tempName n) :=
      ⟨⟨n, rfl⟩, hcompletes.tempName_not_mem hc hframes hlow hhigh, not_mem_nil⟩
    exact hfresh.outside
  · apply Named.outside hcompletes.names fun k heq => tempName_ne_anonymousName k n heq.symm
    intro heq
    have := congrArg String.toList heq
    simp [resultIdent, anonymousName] at this

theorem known_of_pattern (hrun : p.lower c = .ok ((root, children), c')) :
  ∀ x ∈ captured (root.uses ++ childUses children), Known c' x
  := by
  intro x hx k _
  rcases (flattened_lower hrun).2 x hx with hx | ⟨n, -, _, rfl | rfl⟩
  · exact ne_tempName_of_written (hp x hx) k
  · intro heq
    have := tempName_injective heq
    omega
  · exact fun heq => tempName_ne_anonymousName k n heq.symm

end Patterns

theorem set_set (Γ : Typing) (names more : List Ident) :
  (Γ.set names k).set more k = Γ.set (names ++ more) k
  := by
  funext x
  by_cases hmore : x ∈ more <;> by_cases hx : x ∈ names <;> simp [Typing.set, hmore]

theorem plain_set (h : Γ x = .plain) :
  Γ.set names .plain x = .plain
  := by
  rw [Typing.set, h, ite_self]

/-- The nested patterns are matched one after the other, each in the scope of what those before it
capture. -/
theorem Steady.children {children : List ChildPattern} (hargs : ArgsKnown names children)
    (hreads : ∀ x ∈ namesRead (childUses children), Γ x = .plain)
    (hguarded : Steady (Γ.set (names ++ captured (childUses children)) .plain) Λ due guarded.elements)
    (hfailed : ∀ more, more ⊆ names ++ captured (childUses children) →
      Steady (Γ.set more .plain) Λ due failed.elements) :
  Steady (Γ.set names .plain) Λ due (children.foldr (fun child yes =>
    Stmt.cases (.ident child.arg) (.record child.pattern) yes failed) guarded).elements
  := by
  induction children generalizing names with
  | nil => simpa [childUses, captured] using hguarded
  | cons child rest ih =>
    have huses : childUses (child :: rest) = child.pattern.uses ++ childUses rest := rfl
    have hnames : captured child.pattern.uses = (Kernel.Pattern.record child.pattern).captures :=
      child.pattern.captured_uses_eq
    rw [huses, captured_append, ← append_assoc] at hguarded hfailed
    rw [huses, namesRead, filterMap_append, forall_mem_append] at hreads
    apply Steady.cases
    · apply values_append (values_singleton (isValue_of_plain (set_of_mem hargs.1)))
      exact fun x hx => isValue_of_plain (plain_set (hreads.1 x (child.pattern.pinned_subset hx)))
    · rw [set_set, ← hnames]
      exact ih hargs.2 hreads.2 hguarded hfailed
    · apply hfailed
      rw [append_assoc]
      exact subset_append_left _ _

/-- An alternative whose pattern is known, with what is done if it fails. -/
theorem Steady.alternative {p : Pattern} {root : Kernel.Pattern} {children : List ChildPattern}
    {guard : Option Operand} {setup : Setup} (hplain : Γ.Plain F) (hfits : Fits Γ frames due Λ)
    (husable : Usable Γ target) (harg : Γ.Values arg.idents) (hp : Scoped F (namesRead p.uses))
    (hpattern : Flattened p root children ∧ ∀ x ∈ captured (root.uses ++ childUses children), Outside frames x)
    (hbody : Keeps frames (captured p.uses ++ F) [] target body.elements)
    (hfailed : ∀ more, more ⊆ captured (root.uses ++ childUses children) ++ setup.temps →
      (∀ x ∈ more, Outside frames x) → Steady (Γ.set more .plain) Λ due failed.elements) :
  Ready frames old (captured p.uses ++ F) (Kernel.operandIdents guard.toList) setup →
  Steady Γ Λ due (matchThen arg root children (guardThen guard setup body failed) failed).elements
  := by
  intro hguard
  obtain ⟨⟨hargs, hcovers, hreads⟩, houtside⟩ := hpattern
  have hnone (Γ : Typing) : ∀ x ∈ ([] : List Ident), Γ x = .plain := forall_mem_nil _
  have hread : ∀ x ∈ namesRead (root.uses ++ childUses children), Γ x = .plain :=
    fun x hx => hp.plain hplain x (hreads hx)
  rw [namesRead, filterMap_append, forall_mem_append] at hread
  have hcovers' : captured p.uses ++ F ⊆ captured (root.uses ++ childUses children) ++ F :=
    append_subset.mpr ⟨fun _ hx => mem_append_left _ (hcovers hx), subset_append_right _ _⟩
  have hplain' := (hplain.set_plain _).mono hcovers'
  have hfits' := hfits.set houtside .plain
  have husable' := husable.set_plain (captured (root.uses ++ childUses children))
  have houtside' : ∀ x ∈ setup.temps, Outside frames x := fun x hx => (hguard.temps x hx).outside
  have hall : ∀ x ∈ captured (root.uses ++ childUses children) ++ setup.temps, Outside frames x :=
    forall_mem_append.mpr ⟨houtside, houtside'⟩
  replace hfailed : ∀ more, more ⊆ captured (root.uses ++ childUses children) ++ setup.temps →
      Steady (Γ.set more .plain) Λ due failed.elements :=
    fun more hmore => hfailed more hmore fun x hx => hall x (hmore hx)
  apply Steady.cases
  · apply values_append harg
    exact fun x hx => isValue_of_plain (hread.1 x (root.pinned_subset hx))
  · rw [← root.captured_uses_eq]
    apply Steady.children hargs hread.2
    · rw [← captured_append]
      cases guard with
      | none => exact hbody hfits' hplain' (hnone _) husable'
      | some =>
        have hbody' := hbody.inScope (subset_append_right _ _) houtside' hfits' hplain' (hnone _) husable'
        have hfailed' := hfailed _ (Subset.refl _)
        rw [← set_set] at hfailed'
        have hcond := hguard.plain hplain'
        simp only [Option.toList_some, Kernel.operandIdents, flatMap_singleton] at hcond
        refine hguard.around hplain' hfits' ?_ (Nat.le_refl 1)
        exact .ifElse (values_of_plain hcond) hbody' hfailed'
    · rw [← captured_append]
      exact fun more hmore => hfailed more (Subset.trans hmore (subset_append_left _ _))
  · have := hfailed [] (nil_subset _)
    rwa [set_nil] at this

theorem Steady.leftOver {root : Kernel.Pattern}
    (hcreate : Steady (Γ.set [t] (.special ⟨none, due, Λ⟩)) Λ due (Stmt.createProc params no t).elements)
    (hcase : Steady (Γ.set [t] (.special ⟨none, due, Λ⟩)) Λ due (Stmt.cases arg root yes failed).elements) :
  Steady Γ Λ due (Stmt.within [t] (.ofList [.createProc params no t, .cases arg root yes failed])).elements
  := by
  have htry : Stmt.isTry [t] (.ofList [.createProc params no t, .cases arg root yes failed]) = false := by
    rw [Bool.eq_false_iff]
    intro htry
    obtain ⟨_, _, _, _, _, -, heq, -⟩ := Stmt.isTry_iff.mp htry
    cases heq
  have hdeclare : Γ.declare [t] [t] ⟨none, due, Λ⟩ = Γ.set [t] (.special ⟨none, due, Λ⟩) := by
    funext x
    by_cases hx : x ∈ [t] <;> simp [Typing.declare, Typing.set, hx]
  apply Steady.scope [t] htry
  rw [hdeclare]
  apply Steady.ofList
  apply Steady.flatMap
  rw [forall_mem_cons, forall_mem_singleton]
  exact ⟨hcreate, hcase⟩

/-- An alternative whose parts are disciplined and use the names in `F`. -/
structure DisciplinedAlternative (F : List Ident) (alt : Alternative) : Prop where
  captures : ∀ x ∈ captured alt.pattern.uses, Written x
  reads : Scoped F (namesRead alt.pattern.uses)
  guard : ∀ p ∈ alt.guard, Disciplined (captured alt.pattern.uses ++ F) p
  body : DisciplinedBlock (captured alt.pattern.uses ++ F) alt.body

theorem keeps_leftOver {alt : Alternative} {root : Kernel.Pattern} {children : List ChildPattern}
    {guard : Option Operand} {setup : Setup} {reads : List Ident}
    (halt : DisciplinedAlternative F alt)
    (hpattern : Flattened alt.pattern root children ∧
      ∀ x ∈ captured (root.uses ++ childUses children), Outside frames x)
    (ht : Fresh frames (captured (root.uses ++ childUses children) ++ (arg.idents ++ reads ++ targetNames target)) t)
    (hbody : Keeps frames (captured alt.pattern.uses ++ F) [] target body.elements)
    (hno : ∀ ⦃Γ Λ due⦄, Fits Γ frames due Λ → Γ.Plain F → (∀ x ∈ arg.idents ++ reads, Γ x = .plain) →
      Steady (Γ.set params .plain) Λ due no.elements) :
  Ready frames (t :: old) (captured alt.pattern.uses ++ F) (Kernel.operandIdents guard.toList) setup →
  Keeps frames F (arg.idents ++ reads) target (Stmt.within [t] (.ofList [.createProc params no t,
    matchThen arg root children (guardThen guard setup body (.apply (.ident t) (targetArgs target)))
      (.apply (.ident t) (targetArgs target))])).elements
  := by
  intro hguard Γ Λ due hfits hplain hreads husable
  have hnew := ht.new
  rw [mem_append, mem_append, not_or, not_or] at hnew
  obtain ⟨hcaptured, hreads', htarget⟩ := hnew
  have hother {names : List Ident} (hnames : t ∉ names) : ∀ x ∈ [t], x ∉ names :=
    forall_mem_singleton.mpr hnames
  replace hfits := hfits.set (forall_mem_singleton.mpr ht.outside) (.special ⟨none, due, Λ⟩)
  replace hplain := hplain.set (k := .special ⟨none, due, Λ⟩) (forall_mem_singleton.mpr ht.not_written)
  replace husable := husable.set (hother htarget) (.special ⟨none, due, Λ⟩)
  replace hreads : ∀ x ∈ arg.idents ++ reads, Γ.set [t] (.special ⟨none, due, Λ⟩) x = .plain := by
    intro x hx
    rw [set_of_not_mem, hreads x hx]
    rw [mem_singleton]
    rintro rfl
    exact hreads' hx
  have hspecial : Γ.set [t] (.special ⟨none, due, Λ⟩) t = .special ⟨none, due, Λ⟩ :=
    set_of_mem (mem_singleton_self t)
  apply Steady.leftOver
  · have hsteady := hno hfits hplain hreads
    apply Steady.createHelper hspecial hsteady.ok
    simp [hsteady.catches_eq]
  · refine Steady.alternative hplain hfits husable ?_ halt.reads hpattern hbody ?_ hguard
    · exact fun x hx => isValue_of_plain (hreads x (mem_append_left _ hx))
    · intro more hmore _
      have hcalled : t ∉ more := by
        intro hmem
        rcases mem_append.mp (hmore hmem) with hmem | hmem
        · exact hcaptured hmem
        · exact (hguard.temps t hmem).new (mem_cons_self ..)
      apply Steady.callHelper (set_of_not_mem hcalled ▸ hspecial) (Labels.le_refl Λ)
      have hvalues := (husable.set_plain more).values
      rwa [← nil_append (targetArgs target), operandIdents_targetArgs]

theorem sound_alternatives (arg : Operand) (fallback : Fallback)
    (target : Target) (hfallback : ∀ b, fallback = .block b → DisciplinedBlock F b)
    (halts : ∀ alt ∈ alts, DisciplinedAlternative F alt) :
  Sound (alternatives arg fallback alts target) (fun s frames =>
    Keeps frames F (arg.idents ++ fallbackNames fallback) target s.elements)
    (arg.idents ++ fallbackNames fallback ++ targetNames target)
  := by
  induction alts generalizing target with
  | nil =>
    apply ((sound_fallback target hfallback).mono (by simp)).imp
    intro s _ _ hs
    exact hs.weaken (subset_append_right _ _)
  | cons _ rest ih =>
    rw [forall_mem_cons] at halts
    rw [alternatives_cons]
    apply (sound_pattern halts.1.captures).bind_known (fun r => captured (r.1.uses ++ childUses r.2))
      fun _ _ _ _ _ hrun => known_of_pattern halts.1.captures hrun
    rintro ⟨root, children⟩
    have htarget : targetNames target ⊆ captured (root.uses ++ childUses children) ++
        (arg.idents ++ fallbackNames fallback ++ targetNames target) := by
      intro x hx
      simp [hx]
    dsimp only
    split
    · -- what is left is done where the alternative fails
      apply (sound_optionalOperand halts.1.guard).bind
      rintro ⟨_, _⟩
      apply ((halts.1.body.into target).mono htarget).bind
      intro _
      apply ((sound_fallback target hfallback).mono htarget).bind
      intro _
      apply Sound.pure
      intro _ _ hfailed hbody hguard hpattern _ _ _ hfits hplain hreads husable
      rw [forall_mem_append] at hreads
      refine Steady.alternative hplain hfits husable (values_of_plain hreads.1) halts.1.reads hpattern
        hbody (fun more _ hmore => ?_) hguard
      exact hfailed.inScope (subset_append_right _ _) hmore hfits hplain (fun x hx => plain_set (hreads.2 x hx)) husable
    · -- what is left is a procedure, which the alternative calls where it fails
      apply Sound.freshTemp_bind
      intro t
      have hrest : arg.idents ++ fallbackNames fallback ⊆ t :: (captured (root.uses ++ childUses children) ++
          (arg.idents ++ fallbackNames fallback ++ targetNames target)) := by
        intro x hx
        rw [mem_cons, mem_append, mem_append]
        exact .inr (.inr (.inl hx))
      apply (sound_optionalOperand halts.1.guard).bind
      rintro ⟨_, _⟩
      apply ((halts.1.body.into target).mono (subset_cons_of_subset t htarget)).bind
      intro _
      cases target with
      | ident =>
        have hinner : Sound (alternatives arg fallback rest (.ident resultIdent)) (fun s frames =>
            Keeps frames F (arg.idents ++ fallbackNames fallback) (.ident resultIdent) s.elements)
            (arg.idents ++ fallbackNames fallback) := by
          apply Sound.of_known _ resultIdent_ne_tempName
          apply (ih (.ident resultIdent) halts.2).mono
          intro x hx
          rw [mem_append] at hx
          exact mem_cons.mpr (hx.symm.imp_left mem_singleton.mp)
        rw [leftOver, bind_assoc]
        apply (hinner.mono hrest).inShadow.bind
        rintro ⟨_, _⟩
        apply Sound.pure
        intro _ hframes hno hbody hguard ht hpattern
        refine keeps_leftOver halts.1 hpattern ht hbody ?_ hguard
        intro _ _ _ hfits hplain hreads
        apply hno (.shadow (hfits.set_result hframes))
        · exact hplain.set (forall_mem_singleton.mpr not_written_resultIdent)
        · exact fun x hx => plain_set (hreads x hx)
        · rw [Usable]
          trivial
      | discard =>
        rw [leftOver, bind_assoc]
        apply ((ih .discard halts.2).mono (by simp)).bind
        intro _
        apply Sound.pure
        intro _ _ hno hbody hguard ht hpattern
        refine keeps_leftOver halts.1 hpattern ht hbody ?_ hguard
        intro _ _ _ hfits hplain hreads
        exact hno hfits hplain hreads trivial

theorem known_of_operand {p : Phrase} {r : Operand × Setup} (hp : Disciplined F p) (hc : Numbered c)
    (hrun : p.operand c = .ok (r, c')) :
  ∀ y ∈ r.1.idents, Known c' y
  := by
  rw [Phrase.operand] at hrun
  cases hatom : p.atom? with
  | some a =>
    rw [hatom] at hrun
    obtain ⟨rfl, rfl⟩ := pure_eq_ok_iff.mp hrun
    exact fun y hy k _ => ne_tempName_of_written (hp.atom a hatom y hy).2 k
  | none =>
    rw [hatom] at hrun
    obtain ⟨t, d, ht, hrun⟩ := bind_eq_ok_iff.mp hrun
    obtain ⟨s, e, hs, hrun⟩ := bind_eq_ok_iff.mp hrun
    obtain ⟨rfl, rfl⟩ := pure_eq_ok_iff.mp hrun
    have hknown := Sound.known_of_freshTemp ht
    have hd : Advances c d := by
      obtain ⟨-, rfl⟩ := freshTemp_eq_ok_iff.mp ht
      exact hc.advances_fresh
    obtain ⟨hadvances, -⟩ := hp.into (.ident t) hd.numbered hknown hs
    exact fun y hy => (hknown y hy).of_advances hadvances

theorem elements_alternatives {alt : Alternative} {target : Target}
    (hrun : alternatives arg fallback (alt :: rest) target c = .ok (s, c')) :
  s.elements = [s]
  := by
  rw [alternatives_cons] at hrun
  obtain ⟨⟨_, _⟩, _, -, hrun⟩ := bind_eq_ok_iff.mp hrun
  dsimp only at hrun
  split at hrun
  · obtain ⟨⟨_, _⟩, _, -, hrun⟩ := bind_eq_ok_iff.mp hrun
    obtain ⟨_, _, -, hrun⟩ := bind_eq_ok_iff.mp hrun
    obtain ⟨_, _, -, hrun⟩ := bind_eq_ok_iff.mp hrun
    obtain ⟨rfl, -⟩ := pure_eq_ok_iff.mp hrun
    rfl
  · obtain ⟨_, _, -, hrun⟩ := bind_eq_ok_iff.mp hrun
    obtain ⟨⟨_, _⟩, _, -, hrun⟩ := bind_eq_ok_iff.mp hrun
    obtain ⟨_, _, -, hrun⟩ := bind_eq_ok_iff.mp hrun
    obtain ⟨⟨_, _⟩, _, -, hrun⟩ := bind_eq_ok_iff.mp hrun
    obtain ⟨rfl, -⟩ := pure_eq_ok_iff.mp hrun
    rfl

theorem delivers_cases {arg : Phrase} (target : Target) (harg : Disciplined F arg) (hnonempty : clauses ≠ [])
    (hclauses : ∀ alt ∈ clauses, DisciplinedAlternative F alt)
    (hotherwise : ∀ b ∈ otherwise, DisciplinedBlock F b) :
  Delivers F (Lowering.cases arg clauses otherwise target) target
  := by
  apply harg.operand.bind_known (fun r => r.1.idents) fun _ _ _ hc _ hrun =>
    known_of_operand harg hc hrun
  rintro ⟨a, setup⟩
  obtain ⟨alt, rest, rfl⟩ := exists_cons_of_ne_nil hnonempty
  -- a block or nothing is left when no clause matches, and neither uses a name of its own
  have hdone (fallback : Fallback) (hfallback : ∀ b, fallback = .block b → DisciplinedBlock F b)
      (hnames : fallbackNames fallback = []) :
      Sound (do return setup.finish (← alternatives a fallback (alt :: rest) target))
        (fun s frames => Ready frames (targetNames target) F a.idents setup →
          Keeps frames F [] target s.elements) (a.idents ++ targetNames target) := by
    have halts := sound_alternatives a fallback target hfallback hclauses
    rw [hnames, append_nil] at halts
    apply (halts.of_run fun _ _ _ hrun => elements_alternatives hrun).bind
    intro s
    apply Sound.pure
    rintro _ - ⟨helements, hs⟩ hsetup
    apply hsetup.finish hs
    rw [helements]
    exact Nat.le_refl 1
  cases otherwise with
  | none => exact hdone .skip nofun rfl
  | some b =>
    refine hdone (.block b) ?_ rfl
    rintro _ ⟨⟩
    exact hotherwise b rfl

theorem messageIdent_ne_tempName (k : Nat) :
  messageIdent ≠ tempName k
  := by
  intro heq
  have := congrArg String.toList heq
  simp [messageIdent, tempName] at this

theorem sound_handler (kind : HandlerKind) (params : List Ident) (hmessage : messageIdent ∈ params)
    (hresult : kind = .ask → resultIdent ∈ params)
    (hclauses : ∀ alt ∈ clauses, DisciplinedAlternative F alt) :
  Sound (handler clauses kind) (fun s _ =>
    ∀ ⦃Γ : Typing⦄, Γ.Plain F → ∀ d, Ok s (Γ.sealed params) .none d d d) old
  := by
  have hdone (hasResult : Bool) (name : String) (hresult : hasResult = true → resultIdent ∈ params) :
      Sound (do
        let r ← inFrame (.func none hasResult none) (alternatives (.ident messageIdent)
          (.notHandled name) clauses (if hasResult then .ident resultIdent else .discard))
        return closeFunc r.1 r.2) (fun s _ =>
          ∀ ⦃Γ : Typing⦄, Γ.Plain F → ∀ d, Ok s (Γ.sealed params) .none d d d) old := by
    have halts := sound_alternatives (.ident messageIdent) (.notHandled name)
      (if hasResult then .ident resultIdent else .discard) (by simp) hclauses
    replace halts := (halts.of_known messageIdent_ne_tempName).of_known messageIdent_ne_tempName
    refine (sound_function (halts.mono ?_) hresult ?_ (subset_append_right _ _)).bind ?_
    · cases hasResult <;> simp [targetNames]
    · simpa [Operand.idents, fallbackNames] using hmessage
    · rintro ⟨s, _⟩
      apply Sound.pure
      intro _ _ hok
      exact hok
  cases kind with
  | ask => exact hdone true _ fun _ => hresult rfl
  | tell => exact hdone false _ (by simp)

end Control

end ActorLang
