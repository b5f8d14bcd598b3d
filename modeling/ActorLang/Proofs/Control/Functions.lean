import ActorLang.Proofs.Control.Expressions

/-!
# Sequences and functions keep the discipline

The body of a function starts without labels but its own, for whatever is due when it is called.
The catch of its label is put behind it.
-/

namespace ActorLang

open Kernel (Ident Operand Stmt resultIdent messageIdent)
open List
open Lowering

variable {F F' names params formals reads old : List Ident} {body s create : Stmt}
  {stmts rest : List Stmt} {hasResult : Bool} {target : Target} {f name x : Ident}

namespace Control

variable {Γ : Typing} {Λ Λ₀ Λ' : Labels} {due due' : Due}

theorem set_nil (Γ : Typing) (k : Kind) :
  Γ.set [] k = Γ
  := by
  funext x
  exact set_of_not_mem not_mem_nil

/-! ### Sequences -/

theorem sound_inOrder {ps : List Phrase} (target : Target) (h : ∀ p ∈ ps, Disciplined F p) :
  Sound (inOrder ps target) (fun stmts frames =>
    Keeps frames F [] target (stmts.flatMap Stmt.elements)) (targetNames target)
  := by
  fun_induction inOrder ps target with
  | case1 => exact Sound.pure fun _ _ _ _ _ _ _ _ _ => .nil
  | case2 p target =>
    apply ((h p (mem_singleton_self p)).into target).bind
    intro s
    apply Sound.pure
    intro _ _ hs
    rw [flatMap_singleton]
    exact hs
  | case3 p _ _ _ ih =>
    rw [forall_mem_cons] at h
    apply ((h.1.into .discard).mono (nil_subset _)).bind
    intro s
    apply (ih h.2).bind
    intro _
    apply Sound.pure
    intro _ _ hstmts hs _ _ _ hfits hplain hreads husable
    exact (hs hfits hplain hreads trivial).append (hstmts hfits hplain hreads husable)

theorem DisciplinedBlock.into {b : Block} (h : DisciplinedBlock F b) (target : Target) :
  Delivers F (b.into target) target
  := by
  apply (sound_inOrder target h.sentences).bind
  intro _
  apply Sound.pure
  intro _ hframes hstmts _ _ _ hfits hplain _ husable
  apply Steady.within
  · refine Bool.eq_false_iff.mpr fun htry => ?_
    obtain ⟨f, -, -, -, -, hnames, -, hf, -⟩ := Stmt.isTry_iff.mp htry
    exact hf (h.declared f (hnames ▸ mem_singleton_self f))
  · apply Steady.ofList
    exact hstmts.inScope (Subset.refl _) (fun x hx => hframes.written (h.declared x hx)) hfits hplain
      (forall_mem_nil _) husable

theorem delivers_initialValues {decls : List (Ident × Phrase)} (h : ∀ d ∈ decls, Scoped F [d.1] ∧ Disciplined F d.2) :
  Delivers F (return .ofList (← initialValues decls)) .discard
  := by
  have hvalues : Sound (initialValues decls) fun stmts frames =>
      Keeps frames F [] .discard (stmts.flatMap Stmt.elements) := by
    induction decls with
    | nil => exact Sound.pure fun _ _ _ _ _ _ _ _ _ => .nil
    | cons d _ ih =>
      obtain ⟨name, p⟩ := d
      rw [forall_mem_cons] at h
      have hname := h.1.1 name (mem_singleton_self name)
      apply ((h.1.2.into (.ident name)).of_known (ne_tempName_of_written hname.2)).bind
      intro s
      apply (ih h.2).bind
      intro _
      apply Sound.pure
      intro _ _ hstmts hs _ _ _ hfits hplain hreads husable
      have hvalue := isValue_of_plain (hplain name hname.1 hname.2)
      exact (hs hfits hplain hreads hvalue).append (hstmts hfits hplain hreads husable)
  apply hvalues.bind
  intro _
  apply Sound.pure
  intro _ _ hstmts _ _ _ hfits hplain hreads husable
  exact (hstmts hfits hplain hreads husable).ofList

/-! ### Functions -/

theorem ok_ofList (h : Chain (stmts.flatMap Stmt.elements) Γ due Λ₀ due Λ due') :
  Ok (.ofList stmts) Γ Λ due due due'
  := by
  rw [Stmt.ofList]
  split
  case h_1 hnil =>
    rw [hnil] at h
    exact ⟨suffix_refl due, h.2⟩
  case h_2 s hsingle =>
    rw [hsingle] at h
    obtain ⟨_, _, hs, ⟨rfl, rfl⟩, -⟩ := h
    exact hs
  case h_3 => exact ⟨suffix_refl due, Λ₀, h⟩

theorem not_isTry_of_simple (h : stmts.flatMap Stmt.elements = s :: rest) (hs : s.isSimple = true) :
  Stmt.isTry names (.ofList stmts) = false
  := by
  rw [Bool.eq_false_iff]
  intro htry
  obtain ⟨f, _, _, _, _, -, heq, -⟩ := Stmt.isTry_iff.mp htry
  rw [Stmt.ofList, h] at heq
  cases rest with
  | nil =>
    subst heq
    cases hs
  | cons =>
    injection heq with heq
    injection heq with heq
    subst heq
    cases hs

theorem Steady.chain_jumpCatch {n : Nat} (h : Steady Γ (Λ.set n due) due body.elements) :
  Chain (Stmt.ofList [body, .jumpCatch n]).elements Γ due (Λ.set n due) due Λ due
  := by
  have hflat : [body, Stmt.jumpCatch n].flatMap Stmt.elements = body.elements ++ [.jumpCatch n] := by
    simp [Stmt.elements]
  rw [Stmt.elements_ofList]
  · exact h.chain.append ⟨Λ, due, ⟨suffix_refl due, rfl⟩, ⟨rfl, rfl⟩, rfl, .inr (.inl rfl)⟩
  · rw [hflat, forall_mem_append, forall_mem_singleton]
    exact ⟨h.atomic, rfl⟩

theorem ok_of_chain (h : Chain s.elements Γ due Λ₀ due Λ due') :
  Ok s Γ Λ due due due'
  := by
  cases s
  case seq stmts => exact ⟨suffix_refl due, Λ₀, h⟩
  case skip => exact ⟨suffix_refl due, h.2⟩
  all_goals
    obtain ⟨_, _, hs, ⟨rfl, rfl⟩, -⟩ := h
    exact hs

theorem ok_alias (hx : x ≠ resultIdent) (hresult : (Γ resultIdent).IsValue)
    (hbody : Chain body.elements (Γ.set [x] .plain) due Λ₀ due .none due) :
  Ok (.within [x] (.ofList [.bind (.ident resultIdent) x, body])) Γ .none due due due
  := by
  have hflat : [Stmt.bind (.ident resultIdent) x, body].flatMap Stmt.elements =
      .bind (.ident resultIdent) x :: body.elements := by simp [Stmt.elements]
  change Ok (.scope [x] _) Γ .none due due due
  rw [Ok, if_neg (by simp [not_isTry_of_simple hflat rfl])]
  refine ⟨suffix_refl due, [], ?_⟩
  have hvalues : (Γ.set [x] .plain).Values (Stmt.bind (.ident resultIdent) x).occurrences := by
    apply values_append (values_singleton _) (values_singleton _)
    · rw [set_of_not_mem (by simpa using hx.symm)]
      exact hresult
    · exact isValue_of_plain (set_of_mem (mem_singleton_self x))
  have hchain : Chain (.bind (.ident resultIdent) x :: body.elements) (Γ.set [x] .plain) due Λ₀ due
      .none due := ⟨Λ₀, due, ⟨hvalues, rfl, rfl⟩, hbody, rfl, .inr (.inl rfl)⟩
  rw [← hflat] at hchain
  exact ok_ofList hchain

/-- What the returns of a body need is there: the catch of their label and the alias. -/
theorem ok_closeFunc {label : Option Nat} {standIn : Option Ident}
    (hbody : Steady (Γ.set standIn.toList .plain) (Labels.none.setOption label due) due body.elements)
    (hstandIn : ∀ x ∈ standIn, x ≠ resultIdent ∧ (Γ resultIdent).IsValue) :
  Ok (closeFunc body (.func label hasResult standIn)) Γ .none due due due
  := by
  cases standIn with
  | none =>
    cases label with
    | none => exact hbody.ok
    | some => exact ok_of_chain hbody.chain_jumpCatch
  | some x =>
    obtain ⟨hx, hresult⟩ := hstandIn x rfl
    cases label with
    | none => exact ok_alias hx hresult hbody.chain
    | some => exact ok_alias hx hresult hbody.chain_jumpCatch

theorem Steady.createProc {target : Ident}
    (htarget : (Γ target).IsValue) (h : ∀ d, Ok body (Γ.sealed params) .none d d d) :
  Steady Γ Λ due (Stmt.createProc params body target).elements
  := by
  apply Steady.single rfl rfl
  refine ⟨rfl, ?_⟩
  cases hk : Γ target <;> rw [hk] at htarget <;> first | exact ⟨rfl, h⟩ | cases htarget

theorem Steady.named (hname : Γ name = .plain) (hcreate : Steady Γ Λ due create.elements) (htarget : Usable Γ target) :
  Steady Γ Λ due (named name create target).elements
  := by
  cases target with
  | ident =>
    apply Steady.ofList
    apply Steady.flatMap
    rw [forall_mem_cons, forall_mem_singleton]
    refine ⟨hcreate, Steady.simple rfl ?_⟩
    exact values_append (values_singleton (isValue_of_plain hname)) (values_singleton htarget)
  | discard => exact hcreate

theorem sealed_of_mem (hx : x ∈ params) :
  Γ.sealed params x = .plain
  := if_pos hx

theorem sound_function {x : Lower Stmt}
    (hx : Sound x (fun s frames => Keeps frames F' reads (if hasResult then .ident resultIdent else .discard)
      s.elements) [resultIdent])
    (hresult : hasResult = true → resultIdent ∈ formals) (hreads : reads ⊆ formals)
    (hF : F' ⊆ formals ++ F) :
  Sound (inFrame (.func none hasResult none) x) (fun r _ =>
    ∀ ⦃Γ : Typing⦄, Γ.Plain F → ∀ d, Ok (closeFunc r.1 r.2) (Γ.sealed formals) .none d d d) old
  := by
  apply ((hx.of_known resultIdent_ne_tempName).mono (nil_subset old)).inFrame.imp
  rintro ⟨_, _⟩ _ - ⟨hgrows, -, hbody⟩ Γ hplain d
  cases hgrows with
  | @func _ _ _ _ standIn _ hname =>
    have hmade : ∀ y ∈ standIn, hasResult = true ∧ ∃ k, y = tempName k := by
      intro y hy
      rcases hname.mem (Option.mem_toList.mpr hy) with hmem | ⟨hhas, k, -, heq⟩
      · cases hmem
      · exact ⟨hhas, k, heq⟩
    have hformals {y : Ident} (hy : y ∈ formals) :
        (Γ.sealed formals).set standIn.toList .plain y = .plain := by
      rw [Typing.set, sealed_of_mem hy, ite_self]
    apply ok_closeFunc
    · apply hbody
      · apply Fits.func
        · exact fun y hy => isValue_of_plain (set_of_mem hy)
        · exact fun hhas => isValue_of_plain (hformals (hresult hhas))
      · refine (Typing.Plain.set (hplain.sealed formals) ?_).mono hF
        intro y hy
        obtain ⟨-, k, rfl⟩ := hmade y (Option.mem_toList.mp hy)
        exact not_written_tempName k
      · exact fun y hy => hformals (hreads hy)
      · cases hasResult with
        | true => exact isValue_of_plain (hformals (hresult rfl))
        | false => trivial
    · intro y hy
      obtain ⟨hhas, k, rfl⟩ := hmade y hy
      exact ⟨(resultIdent_ne_tempName k).symm, isValue_of_plain (sealed_of_mem (hresult hhas))⟩

theorem delivers_procedure {name : Option Ident} {body : Block} (target : Target)
    (hname : Scoped F name.toList) (hbody : DisciplinedBlock (params ++ F) body) :
  Delivers F (procedure name params body hasResult target) target
  := by
  have hformals : params ⊆ if hasResult then params ++ [resultIdent] else params := by
    cases hasResult <;> simp
  have hfunction : Sound (inFrame (.func none hasResult none)
      (body.into (if hasResult then .ident resultIdent else .discard))) (fun r _ => ∀ ⦃Γ : Typing⦄,
        Γ.Plain F → ∀ d, Ok (closeFunc r.1 r.2)
          (Γ.sealed (if hasResult then params ++ [resultIdent] else params)) .none d d d)
        (targetNames target) := by
    apply sound_function ((hbody.into _).mono _)
    · rintro rfl
      simp
    · exact nil_subset _
    · exact append_subset.mpr ⟨fun _ hx => mem_append_left _ (hformals hx), subset_append_right _ _⟩
    · cases hasResult <;> simp [targetNames]
  apply hfunction.bind
  rintro ⟨s, _⟩
  cases name with
  | some name =>
    apply Sound.pure
    intro _ _ hok _ _ _ _ hplain _ husable
    have hvalue := hname.plain hplain name (mem_singleton_self name)
    apply Steady.named hvalue _ husable
    exact Steady.createProc (isValue_of_plain hvalue) (hok hplain)
  | none =>
    apply (sound_deliver fun t => rfl).imp
    intro _ _ _ h hok
    apply h .nil
    intro t _ _ _ _ hplain _ ht
    exact Steady.createProc ht (hok hplain)

/-! ### Procedures of constructs -/

theorem Steady.createHelper (hf : Γ f = .special ⟨none, due, Λ⟩) (h : Ok body (Γ.set params .plain) Λ due due due)
    (hcatches : ∀ n ∈ body.catches, Λ n = none) :
  Steady Γ Λ due (Stmt.createProc params body f).elements
  := by
  apply Steady.single rfl rfl
  rw [Ok, hf]
  exact ⟨rfl, rfl, rfl, h, hcatches⟩

theorem Steady.callHelper {args : List Operand} (hf : Γ f = .special ⟨none, due, Λ'⟩) (hΛ : Λ' ≤ Λ)
    (hargs : Γ.Values (Kernel.operandIdents args)) :
  Steady Γ Λ due (Stmt.apply (.ident f) args).elements
  := by
  apply Steady.single rfl rfl
  refine ⟨hargs, ?_⟩
  rw [Typing.Applies, hf]
  exact ⟨rfl, rfl, hΛ, rfl⟩

end Control

end ActorLang
