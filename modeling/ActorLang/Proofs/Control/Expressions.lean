import ActorLang.Proofs.Control.Places
import ActorLang.Proofs.Lowering.Parts

/-!
# Expressions keep the discipline

A phrase is disciplined if its statements are steady wherever it is lowered and its names stand
for values.  An expression is, if its parts are.
-/

namespace ActorLang

open Kernel (Ident Operand BinaryPrim Stmt resultIdent messageIdent)
open List
open Lowering Control

variable {F F' names more reads old : List Ident} {t x : Ident} {setup : Setup} {stmt : Ident → Stmt}
  {args : List Operand} {label : Option Phrase} {left right p : Phrase} {target : Target}
  {frames : List JumpFrame} {stmts : List Stmt}

namespace Control

variable {Γ : Typing} {Λ : Labels} {due : Due}

/-- Names of the program that are in scope. -/
def Scoped (F names : List Ident) : Prop := ∀ x ∈ names, x ∈ F ∧ Written x

/-- What is lowered is steady and delivers to the target. -/
def Delivers (F : List Ident) (x : Lower Stmt) (target : Target) : Prop :=
  Sound x (fun s frames => Keeps frames F [] target s.elements) (targetNames target)

/-- A phrase whose statements are steady and use the names in `F`. -/
structure Disciplined (F : List Ident) (p : Phrase) : Prop where
  atom : ∀ a, p.atom? = some a → Scoped F a.idents
  into : ∀ target, Delivers F (p.into target) target

/-- A block whose statements are steady and use the names in `F`. -/
structure DisciplinedBlock (F : List Ident) (b : Block) : Prop where
  declared : ∀ x ∈ b.declared, Written x
  sentences : ∀ p ∈ b.sentences, Disciplined (b.declared ++ F) p

theorem Scoped.mono (h : Scoped F names) (hF : F ⊆ F') :
  Scoped F' names
  := fun x hx => ⟨hF (h x hx).1, (h x hx).2⟩

theorem Scoped.plain (h : Scoped F names) (hΓ : Γ.Plain F) :
  ∀ x ∈ names, Γ x = .plain
  := fun x hx => hΓ x (h x hx).1 (h x hx).2

theorem Disciplined.mono (h : Disciplined F p) (hF : F ⊆ F') :
  Disciplined F' p where
  atom a ha := (h.atom a ha).mono hF
  into target := (h.into target).imp fun _ _ _ hs => hs.mono hF

theorem subset_append_append (h : F ⊆ F') :
  names ++ F ⊆ names ++ F'
  := append_subset.mpr ⟨subset_append_left _ _, fun _ hx => mem_append_right _ (h hx)⟩

theorem isValue_of_plain (h : Γ x = .plain) :
  (Γ x).IsValue
  := by
  rw [h]
  trivial

theorem values_of_plain (h : ∀ x ∈ names, Γ x = .plain) :
  Γ.Values names
  := fun x hx => isValue_of_plain (h x hx)

theorem values_append (h : Γ.Values names) (h' : Γ.Values more) :
  Γ.Values (names ++ more)
  := forall_mem_append.mpr ⟨h, h'⟩

theorem values_singleton (h : (Γ x).IsValue) :
  Γ.Values [x]
  := forall_mem_singleton.mpr h

theorem values_nil :
  Γ.Values []
  := forall_mem_nil _

theorem Usable.values (h : Usable Γ target) :
  Γ.Values (targetNames target)
  := by
  cases target with
  | ident => exact values_singleton h
  | discard => exact values_nil

namespace Keeps

theorem weaken (h : Keeps frames F reads target stmts) (hsub : reads ⊆ more) :
  Keeps frames F more target stmts
  := fun _ _ _ hfits hplain hreads => h hfits hplain fun x hx => hreads x (hsub hx)

theorem inScope (h : Keeps frames F' reads target stmts) (hF : F' ⊆ names ++ F)
    (hnames : ∀ x ∈ names, Outside frames x) (hfits : Fits Γ frames due Λ) (hplain : Γ.Plain F)
    (hreads : ∀ x ∈ reads, Γ.set names .plain x = .plain) (husable : Usable Γ target) :
  Steady (Γ.set names .plain) Λ due stmts
  := h (hfits.set hnames _) ((hplain.set_plain names).mono hF) hreads (husable.set_plain names)

theorem simple {s : Stmt} (hs : s.isSimple = true) (hnames : s.occurrences ⊆ reads ++ targetNames target) :
  Keeps frames F reads target s.elements
  := by
  intro _ _ _ _ _ hreads husable
  apply Steady.simple hs
  intro x hx
  exact values_append (values_of_plain hreads) husable.values x (hnames hx)

end Keeps

theorem Delivers.of_discard {x : Lower Stmt} (h : Delivers F x .discard) (target : Target) :
  Delivers F x target
  := by
  apply (h.mono (nil_subset _)).imp
  intro s _ _ hs _ _ _ hfits hplain hreads _
  exact hs hfits hplain hreads trivial

/-! ### No other scope is an attempt with a final part -/

theorem not_rethrows {caught' due' : Due} {caught : Ident} {handler : Stmt} (ht : Γ t = .data) (hcaught : caught ≠ t)
    (h : Ok handler (Γ.set [caught] .plain) Λ caught' due due') :
  Stmt.rethrows t caught handler = false
  := by
  have huncalled {Γ : Typing} {Λ : Labels} {caught due due' : Due} {x : Ident} (ht : Γ t = .data)
      (h : Ok (.seq [.apply (.ident t) [], .throw (.ident x)]) Γ Λ caught due due') : False := by
    obtain ⟨-, _, _, _, hcall, -⟩ := h
    have := hcall.2
    rw [Typing.Applies, ht] at this
    exact this
  have hset {Γ : Typing} {x : Ident} (ht : Γ t = .data) (hx : x ≠ t) :
      Γ.set [x] .plain t = .data := by
    rw [set_of_not_mem (by simpa using hx.symm), ht]
  rw [Bool.eq_false_iff]
  intro hrethrows
  unfold Stmt.rethrows at hrethrows
  split at hrethrows
  · simp only [Bool.and_eq_true, decide_eq_true_eq] at hrethrows
    obtain ⟨rfl, rfl⟩ := hrethrows
    apply huncalled (hset ht hcaught) h
  · simp only [Bool.and_eq_true, decide_eq_true_eq, bne_iff_ne] at hrethrows
    obtain ⟨⟨rfl, rfl⟩, hescaped⟩ := hrethrows
    apply huncalled (hset (hset ht hcaught) hescaped) h.2.2.2.2
  · cases hrethrows

/-- A scope whose only name is not called, but for its last statement, is no attempt with a final
part. -/
theorem not_isTry {stmts more : List Stmt} {body : Stmt}
    (ht : Γ t = .data) (h : Steady Γ Λ due stmts) (hbody : body.elements = stmts ++ more)
    (hmore : more.length ≤ 1) :
  Stmt.isTry [t] body = false
  := by
  rw [Bool.eq_false_iff]
  intro htry
  obtain ⟨f, block, attempted, caught, handler, hf, rfl, -, hcaught, hrethrows⟩ :=
    Stmt.isTry_iff.mp htry
  obtain rfl := singleton_inj.mp hf
  have hattempt : Stmt.attempt attempted caught handler ∈ stmts := by
    rw [Stmt.elements] at hbody
    have hlength := congrArg List.length hbody
    rw [length_append] at hlength
    rcases stmts with _ | ⟨_, _ | ⟨_, _⟩⟩
    · simp only [length_cons] at hlength
      omega
    · simp only [length_cons] at hlength
      omega
    · simp only [cons_append, cons.injEq] at hbody
      obtain ⟨-, rfl, -⟩ := hbody
      simp
  obtain ⟨_, _, _, hok⟩ := h.chain.ok_of_mem hattempt
  rw [not_rethrows ht hcaught hok.2.2.2.2] at hrethrows
  cases hrethrows

/-! ### Operands -/

/-- The statements of a setup fill its temporaries, and the names that are read afterwards are
among these or in scope. -/
structure Ready (frames : List JumpFrame) (old F reads : List Ident) (setup : Setup) : Prop where
  temps : ∀ t ∈ setup.temps, Fresh frames old t
  stmts : ∀ s ∈ setup.stmts, ∃ t ∈ setup.temps, Keeps frames F [] (.ident t) s.elements
  reads : ∀ x ∈ reads, x ∈ setup.temps ∨ x ∈ F ∧ Written x

namespace Ready

theorem of_scoped (h : Scoped F reads) :
  Ready frames old F reads {} where
  temps := by simp
  stmts := by simp
  reads x hx := .inr (h x hx)

theorem nil :
  Ready frames old F [] {}
  := of_scoped (forall_mem_nil _)

theorem append {setup' : Setup} (h : Ready frames old F reads setup) (h' : Ready frames old F more setup') :
  Ready frames old F (reads ++ more) (setup ++ setup') where
  temps := forall_mem_append.mpr ⟨h.temps, h'.temps⟩
  stmts := by
    refine forall_mem_append.mpr ⟨fun s hs => ?_, fun s hs => ?_⟩
    · obtain ⟨t, ht, hkeeps⟩ := h.stmts s hs
      exact ⟨t, mem_append_left _ ht, hkeeps⟩
    · obtain ⟨t, ht, hkeeps⟩ := h'.stmts s hs
      exact ⟨t, mem_append_right _ ht, hkeeps⟩
  reads := by
    refine forall_mem_append.mpr ⟨fun x hx => ?_, fun x hx => ?_⟩
    · exact (h.reads x hx).imp_left (mem_append_left _)
    · exact (h'.reads x hx).imp_left (mem_append_right _)

theorem append_scoped (h : Ready frames old F reads setup) (h' : Scoped F more) :
  Ready frames old F (reads ++ more) setup where
  temps := h.temps
  stmts := h.stmts
  reads := forall_mem_append.mpr ⟨h.reads, fun x hx => .inr (h' x hx)⟩

theorem weaken (h : Ready frames old F reads setup) (hsub : more ⊆ reads) :
  Ready frames old F more setup
  := { h with reads := fun x hx => h.reads x (hsub hx) }

section

variable (h : Ready frames old F reads setup) (hplain : Γ.Plain F)

include h hplain

theorem steady (hfits : Fits Γ frames due Λ) {k : Kind} (hk : k.IsValue) :
  Steady (Γ.set setup.temps k) Λ due (setup.stmts.flatMap Stmt.elements)
  := by
  apply Steady.flatMap
  intro s hs
  obtain ⟨t, ht, hkeeps⟩ := h.stmts s hs
  apply hkeeps (hfits.set (fun x hx => (h.temps x hx).outside) k)
    (hplain.set fun x hx => (h.temps x hx).not_written) (forall_mem_nil _)
  rw [Usable, set_of_mem ht]
  exact hk

theorem plain :
  ∀ x ∈ reads, Γ.set setup.temps .plain x = .plain
  := by
  intro x hx
  rcases h.reads x hx with ht | ⟨hF, hwritten⟩
  · exact set_of_mem ht
  · exact hplain.set_plain _ x (mem_append_right _ hF) hwritten

/-- At most one statement that may call a temporary follows. -/
theorem around {last : List Stmt} (hfits : Fits Γ frames due Λ)
    (hlast : Steady (Γ.set setup.temps .plain) Λ due (last.flatMap Stmt.elements))
    (hlength : (last.flatMap Stmt.elements).length ≤ 1) :
  Steady Γ Λ due (Stmt.within setup.temps (.ofList (setup.stmts ++ last))).elements
  := by
  have hall : Steady (Γ.set setup.temps .plain) Λ due ((setup.stmts ++ last).flatMap Stmt.elements) := by
    rw [flatMap_append]
    exact (h.steady hplain hfits (k := .plain) trivial).append hlast
  apply Steady.within _ hall.ofList
  rcases htemps : setup.temps with _ | ⟨t, _ | ⟨u, _⟩⟩
  · rfl
  · have hdata := h.steady hplain hfits (k := .data) trivial
    rw [htemps] at hdata
    apply not_isTry (set_of_mem (mem_singleton_self t)) hdata _ hlength
    rw [Stmt.elements_ofList hall.atomic, flatMap_append]
  · rfl

end

theorem finish {last : Stmt} (h : Ready frames old F reads setup)
    (hlast : Keeps frames F reads target last.elements) (hlength : last.elements.length ≤ 1) :
  Keeps frames F [] target (setup.finish last).elements
  := by
  intro _ _ _ hfits hplain _ husable
  rw [← flatMap_singleton Stmt.elements last] at hlength
  apply h.around hplain hfits _ hlength
  rw [flatMap_singleton]
  exact hlast.inScope (subset_append_right _ _) (fun x hx => (h.temps x hx).outside) hfits hplain
    (h.plain hplain) husable

end Ready

theorem Disciplined.operand (hp : Disciplined F p) :
  Sound p.operand (fun r frames => Ready frames old F r.1.idents r.2) old
  := by
  rw [Phrase.operand]
  cases hatom : p.atom? with
  | some a =>
    apply Sound.pure
    intro _ _
    exact .of_scoped (hp.atom a hatom)
  | none =>
    apply Sound.freshTemp_bind
    intro t
    apply ((hp.into (.ident t)).mono (by simp [targetNames])).bind
    intro s
    apply Sound.pure
    intro _ _ hs ht
    exact ⟨forall_mem_singleton.mpr ht, forall_mem_singleton.mpr ⟨t, mem_singleton_self t, hs⟩, fun x hx => .inl hx⟩

theorem sound_operands {ps : List Phrase} (h : ∀ p ∈ ps, Disciplined F p) :
  Sound (operands ps) (fun r frames => Ready frames old F (Kernel.operandIdents r.1) r.2) old
  := by
  induction ps with
  | nil => exact Sound.pure fun _ _ => .nil
  | cons p _ ih =>
    rw [forall_mem_cons] at h
    apply h.1.operand.bind
    rintro ⟨_, _⟩
    apply (ih h.2).bind
    rintro ⟨_, _⟩
    apply Sound.pure
    intro _ _ hargs harg
    exact harg.append hargs

theorem sound_optionalOperand {p : Option Phrase} (h : ∀ q ∈ p, Disciplined F q) :
  Sound (optionalOperand p) (fun r frames => Ready frames old F (Kernel.operandIdents r.1.toList) r.2) old
  := by
  cases p with
  | none => exact Sound.pure fun _ _ => .nil
  | some p =>
    apply (h p rfl).operand.bind
    rintro ⟨_, _⟩
    apply Sound.pure
    simp [Kernel.operandIdents]

theorem sound_targetIdent (target : Target) :
  Sound (targetIdent target) (fun r frames => ∃ names, Ready frames old F names r.2 ∧
    ∀ ⦃reads stmts⦄, Keeps frames F reads (.ident r.1) stmts → Keeps frames F (reads ++ names) target stmts) old
  := by
  cases target with
  | ident =>
    apply Sound.pure
    intro _ _
    exact ⟨[], .nil, fun reads stmts h => h.weaken (subset_append_left _ _)⟩
  | discard =>
    apply Sound.freshTemp.bind
    intro t
    apply Sound.pure
    intro _ _ ht
    refine ⟨[t], ⟨forall_mem_singleton.mpr ht, by simp, fun x hx => .inl hx⟩, ?_⟩
    intro _ _ h _ _ _ hfits hplain hreads _
    rw [forall_mem_append, forall_mem_singleton] at hreads
    exact h hfits hplain hreads.1 (isValue_of_plain hreads.2)

theorem sound_deliver (hstmt : ∀ t, (stmt t).elements = [stmt t]) :
  Sound (deliver setup target stmt) (fun s frames => Ready frames old F reads setup →
    (∀ t, Keeps frames F reads (.ident t) (stmt t).elements) → Keeps frames F [] target s.elements) old
  := by
  apply (sound_targetIdent target).bind
  rintro ⟨t, _⟩
  apply Sound.pure
  rintro _ - ⟨_, hmore, htarget⟩ hsetup hkeeps
  apply (hsetup.append hmore).finish (htarget (hkeeps t))
  rw [hstmt]
  exact Nat.le_refl 1

/-! ### Expressions -/

theorem atom_disciplined {arg : Operand} (h : Scoped F arg.idents) :
  Disciplined F (atom arg)
  := by
  constructor
  · intro a ha
    cases ha
    exact h
  · intro target
    cases target with
    | ident =>
      apply Sound.pure
      intro _ _ _ _ _ _ hplain _ husable
      apply Steady.simple rfl
      exact values_append (values_of_plain (h.plain hplain)) (values_singleton husable)
    | discard => exact Sound.pure fun _ _ _ _ _ _ _ _ _ => .nil

theorem delivers_deliver (hsimple : ∀ t, (stmt t).isSimple = true) (hnames : ∀ t, (stmt t).occurrences = reads ++ [t]) :
  Sound (deliver setup target stmt) (fun s frames => Ready frames old F reads setup →
    Keeps frames F [] target s.elements) old
  := by
  apply (sound_deliver fun t => ?_).imp
  · intro s _ _ h hsetup
    apply h hsetup
    intro t
    apply Keeps.simple (hsimple t)
    rw [hnames]
    exact Subset.refl _
  · have := hsimple t
    cases hs : stmt t <;> rw [hs] at this <;> first | rfl | cases this

theorem pairs_subset (args : List Operand) :
  ((record.pairs args).flatMap fun (f, v) => f.idents ++ v.idents) ⊆ Kernel.operandIdents args
  := by
  intro x hx
  obtain ⟨f, hf, hx⟩ := mem_flatMap.mp hx
  obtain ⟨hfeature, hvalue⟩ := mem_of_pairs hf
  rcases mem_append.mp hx with hx | hx
  · exact mem_flatMap.mpr ⟨f.1, hfeature, hx⟩
  · exact mem_flatMap.mpr ⟨f.2, hvalue, hx⟩

theorem delivers_record {fields : List (Phrase × Phrase)} (target : Target) (hlabel : ∀ p ∈ label, Disciplined F p)
    (hfields : ∀ f ∈ fields, Disciplined F f.1 ∧ Disciplined F f.2) :
  Delivers F (record label fields target) target
  := by
  apply (sound_optionalOperand hlabel).bind
  rintro ⟨l, _⟩
  have hparts : ∀ p ∈ fields.flatMap fun f => [f.1, f.2], Disciplined F p := by
    intro p hp
    obtain ⟨f, hf, hp⟩ := mem_flatMap.mp hp
    rcases mem_cons.mp hp with rfl | hp
    · exact (hfields f hf).1
    · rw [mem_singleton.mp hp]
      exact (hfields f hf).2
  apply (sound_operands hparts).bind
  rintro ⟨args, _⟩
  apply (delivers_deliver (fun t => rfl) fun t => rfl).imp
  intro s _ _ h hargs hl
  exact h ((hl.append hargs).weaken (subset_append_append (pairs_subset args)))

theorem delivers_tuple {values : List Phrase} (target : Target)
    (hlabel : ∀ p ∈ label, Disciplined F p) (hvalues : ∀ p ∈ values, Disciplined F p) :
  Delivers F (tuple label values target) target
  := by
  apply (sound_optionalOperand hlabel).bind
  rintro ⟨l, _⟩
  apply (sound_operands hvalues).bind
  rintro ⟨_, _⟩
  apply (delivers_deliver (fun t => rfl) fun t => rfl).imp
  intro s _ _ h hargs hl
  exact h (hl.append hargs)

theorem delivers_unary {stmt : Operand → Ident → Stmt} (target : Target) (hp : Disciplined F p)
    (hsimple : ∀ arg t, (stmt arg t).isSimple = true)
    (hnames : ∀ arg t, (stmt arg t).occurrences = arg.idents ++ [t]) :
  Delivers F (p.operand >>= fun (arg, setup) => deliver setup target (stmt arg)) target
  := by
  apply hp.operand.bind
  rintro ⟨arg, _⟩
  exact delivers_deliver (hsimple arg) (hnames arg)

theorem delivers_binary {stmt : Operand → Operand → Ident → Stmt}
    (target : Target) (hleft : Disciplined F left) (hright : Disciplined F right)
    (hsimple : ∀ l r t, (stmt l r t).isSimple = true)
    (hnames : ∀ l r t, (stmt l r t).occurrences = l.idents ++ r.idents ++ [t]) :
  Delivers F (left.operand >>= fun (l, setup) => right.operand >>= fun (r, more) =>
    deliver (setup ++ more) target (stmt l r)) target
  := by
  apply hleft.operand.bind
  rintro ⟨l, _⟩
  apply hright.operand.bind
  rintro ⟨r, _⟩
  apply (delivers_deliver (hsimple l r) (hnames l r)).imp
  intro s _ _ h hr hl
  exact h (hl.append hr)

theorem delivers_shortCircuit {evaluates : Bool} (target : Target)
    (hleft : Disciplined F left) (hright : Disciplined F right) :
  Delivers F (shortCircuit evaluates left right target) target
  := by
  apply hleft.operand.bind
  rintro ⟨_, _⟩
  apply (hright.into target).bind
  intro _
  apply Sound.pure
  intro _ _ hmore hsetup
  apply hsetup.finish
  · intro Γ Λ due hfits hplain hcond husable
    replace hmore := hmore hfits hplain (forall_mem_nil _) husable
    cases target with
    | ident t =>
      have hshort (b : Bool) : Steady Γ Λ due (Stmt.bind (.lit (.bool b)) t).elements :=
        Steady.simple rfl (values_singleton husable)
      cases evaluates with
      | true => exact .ifElse (values_of_plain hcond) hmore (hshort false)
      | false => exact .ifElse (values_of_plain hcond) (hshort true) hmore
    | discard =>
      cases evaluates with
      | true => exact .ifElse (values_of_plain hcond) hmore .nil
      | false => exact .ifElse (values_of_plain hcond) .nil hmore
  · cases evaluates <;> exact Nat.le_refl 1

theorem delivers_not (target : Target) (hp : Disciplined F p) :
  Delivers F (Lowering.not p target) target
  := by
  apply hp.operand.bind
  rintro ⟨_, _⟩
  apply Sound.pure
  intro _ _ hsetup
  cases target with
  | ident t =>
    refine hsetup.finish ?_ (Nat.le_refl 1)
    intro Γ Λ due _ _ hcond husable
    have hbind (b : Bool) : Steady Γ Λ due (Stmt.bind (.lit (.bool b)) t).elements :=
      Steady.simple rfl (values_singleton husable)
    exact .ifElse (values_of_plain hcond) (hbind false) (hbind true)
  | discard => exact hsetup.finish (fun _ _ _ _ _ _ _ => .nil) (Nat.zero_le 1)

theorem operandIdents_targetArgs (args : List Operand) (target : Target) :
  Kernel.operandIdents (args ++ targetArgs target) = Kernel.operandIdents args ++ targetNames target
  := by
  rw [Kernel.operandIdents, flatMap_append]
  cases target <;> rfl

theorem Steady.apply {proc : Operand} (hproc : ∀ x ∈ proc.idents, Γ x = .plain)
    (hargs : Γ.Values (Kernel.operandIdents args)) :
  Steady Γ Λ due (Stmt.apply proc args).elements
  := by
  apply Steady.single rfl rfl
  refine ⟨hargs, ?_⟩
  cases proc with
  | lit => exact ⟨rfl, rfl⟩
  | ident f =>
    rw [Typing.Applies, hproc f (mem_singleton_self f)]
    exact ⟨rfl, rfl⟩

theorem delivers_apply {proc : Phrase} {args : List Phrase} (target : Target)
    (hproc : Disciplined F proc) (hargs : ∀ p ∈ args, Disciplined F p) :
  Delivers F (Lowering.apply proc args target) target
  := by
  apply hproc.operand.bind
  rintro ⟨f, _⟩
  apply (sound_operands hargs).bind
  rintro ⟨_, _⟩
  apply Sound.pure
  intro _ _ has hf
  refine (hf.append has).finish ?_ (Nat.le_refl 1)
  intro _ _ _ _ _ hreads husable
  rw [forall_mem_append] at hreads
  apply Steady.apply hreads.1
  rw [operandIdents_targetArgs]
  exact values_append (values_of_plain hreads.2) husable.values

theorem delivers_selectApply {record : Phrase} {path : List Operand} {args : List Phrase}
    (target : Target) (hrecord : Disciplined F record)
    (hpath : Scoped F (Kernel.operandIdents path)) (hargs : ∀ p ∈ args, Disciplined F p) :
  Delivers F (selectApply record path args target) target
  := by
  apply hrecord.operand.bind
  rintro ⟨r, _⟩
  apply (sound_operands hargs).bind
  rintro ⟨_, _⟩
  apply Sound.pure
  intro _ _ has hr
  refine ((hr.append_scoped hpath).append has).finish ?_ (Nat.le_refl 1)
  apply Keeps.simple rfl
  rw [Stmt.occurrences, operandIdents_targetArgs, ← append_assoc]
  exact Subset.refl _

theorem delivers_unify (hleft : Disciplined F left) (hright : Disciplined F right) :
  Delivers F (unify left right) .discard
  := by
  have hname {p q : Phrase} {name : Ident} (hp : Disciplined F p) (hq : Disciplined F q)
      (hatom : p.atom? = some (.ident name)) : Delivers F (q.into (.ident name)) .discard := by
    obtain ⟨hF, hwritten⟩ := hp.atom _ hatom name (mem_singleton_self name)
    apply ((hq.into (.ident name)).of_known (ne_tempName_of_written hwritten)).imp
    intro s _ _ h _ _ _ hfits hplain hreads _
    exact h hfits hplain hreads (isValue_of_plain (hplain name hF hwritten))
  rw [unify]
  split
  case h_1 name _ hatom => exact hname hleft hright hatom
  case h_2 name hatom _ => exact hname hright hleft hatom
  case h_3 =>
    apply Sound.freshTemp_bind
    intro t
    apply (hleft.into (.ident t)).bind
    intro l
    apply (hright.into (.ident t)).bind
    intro r
    apply Sound.pure
    intro frames _ hr hl ht
    have hready : Ready frames [] F [] ⟨[t], [l, r]⟩ := by
      refine ⟨forall_mem_singleton.mpr ht, ?_, forall_mem_nil _⟩
      simpa using ⟨hl, hr⟩
    intro _ _ _ hfits hplain _ _
    exact hready.around hplain hfits .nil (Nat.zero_le 1)

theorem delivers_assign {cell value : Phrase} (hcell : Disciplined F cell) (hvalue : Disciplined F value) :
  Delivers F (assign cell value) .discard
  := by
  apply hcell.operand.bind
  rintro ⟨c, _⟩
  apply hvalue.operand.bind
  rintro ⟨v, _⟩
  apply Sound.pure
  intro _ _ hv hc
  refine (hc.append hv).finish ?_ (Nat.le_refl 1)
  apply Keeps.simple rfl
  exact subset_append_left _ _

theorem delivers_throwValue (hp : Disciplined F p) :
  Delivers F (throwValue p) .discard
  := by
  apply hp.operand.bind
  rintro ⟨_, _⟩
  apply Sound.pure
  intro _ _ hsetup
  refine hsetup.finish ?_ (Nat.le_refl 1)
  intro _ _ _ _ _ hvalue _
  apply Steady.single rfl rfl
  exact ⟨values_of_plain hvalue, rfl⟩

end Control

end ActorLang
