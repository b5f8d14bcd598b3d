import ActorLang.Proofs.Control.Discipline

/-!
# Steady statements

A statement is steady if it leaves what is due as it is, throws only what a handler takes for which
the same is due, and has no catch of its own.  Steady statements can follow each other in any order.
-/

namespace ActorLang

open Kernel (Ident Operand Stmt)
open List

namespace Kernel.Stmt

theorem listCatches_append (stmts more : List Stmt) :
  listCatches (stmts ++ more) = listCatches stmts ++ listCatches more
  := by
  induction stmts with
  | nil => rfl
  | cons s _ ih => simp only [cons_append, listCatches, ih, append_assoc]

theorem listCatches_elements (s : Stmt) :
  listCatches s.elements = s.catches
  := by
  cases s <;> simp [elements, listCatches, catches]

theorem elements_ofList {stmts : List Stmt} (h : ∀ s ∈ stmts.flatMap elements, s.elements = [s]) :
  (ofList stmts).elements = stmts.flatMap elements
  := by
  rw [ofList]
  split
  case h_1 hnil => rw [hnil, elements]
  case h_2 s hsingle =>
    rw [hsingle] at h ⊢
    apply h s (mem_singleton_self s)
  case h_3 => rw [elements]

end Kernel.Stmt

namespace Control

variable {Γ : Typing} {Λ Λ₀ Λ₁ : Labels} {caught due due' : Due} {s body handler : Stmt}
  {stmts more : List Stmt} {names : List Ident}

theorem Chain.append (h : Chain stmts Γ caught Λ₀ due Λ₁ caught) (h' : Chain more Γ caught Λ₁ caught Λ due') :
  Chain (stmts ++ more) Γ caught Λ₀ due Λ due'
  := by
  induction stmts generalizing Λ₀ due with
  | nil =>
    obtain ⟨rfl, rfl⟩ := h
    apply h'
  | cons s _ ih =>
    obtain ⟨Λ₂, due₂, hs, hrest, hΛ, hdue⟩ := h
    refine ⟨Λ₂, due₂, hs, ih hrest, hΛ, ?_⟩
    rcases hdue with hdue | hdue | hdue
    · exact .inl hdue
    · exact .inr (.inl hdue)
    · exact .inr (.inl hdue)

theorem Chain.ok_of_mem (h : Chain stmts Γ caught Λ₀ due Λ due') (hs : s ∈ stmts) :
  ∃ Λ₁ due₁ due₂, Ok s Γ Λ₁ caught due₁ due₂
  := by
  induction stmts generalizing Λ₀ due with
  | nil => cases hs
  | cons _ _ ih =>
    obtain ⟨Λ₁, due₁, hfirst, hrest, -, -⟩ := h
    rcases mem_cons.mp hs with rfl | hs
    · exact ⟨Λ₁, due, due₁, hfirst⟩
    · apply ih hrest hs

/-- Statements that leave what is due as it is. -/
structure Steady (Γ : Typing) (Λ : Labels) (due : Due) (stmts : List Stmt) : Prop where
  atomic : ∀ s ∈ stmts, s.elements = [s]
  catches : Stmt.listCatches stmts = []
  chain : Chain stmts Γ due Λ due Λ due

namespace Steady

theorem nil :
  Steady Γ Λ due [] where
  atomic := by simp
  catches := rfl
  chain := ⟨rfl, rfl⟩

theorem append (h : Steady Γ Λ due stmts) (h' : Steady Γ Λ due more) :
  Steady Γ Λ due (stmts ++ more) where
  atomic := forall_mem_append.mpr ⟨h.atomic, h'.atomic⟩
  catches := by rw [Stmt.listCatches_append, h.catches, h'.catches, append_nil]
  chain := h.chain.append h'.chain

theorem flatMap (h : ∀ s ∈ stmts, Steady Γ Λ due s.elements) :
  Steady Γ Λ due (stmts.flatMap Stmt.elements)
  := by
  induction stmts with
  | nil => exact nil
  | cons s _ ih =>
    rw [forall_mem_cons] at h
    apply append h.1 (ih h.2)

theorem ofList (h : Steady Γ Λ due (stmts.flatMap Stmt.elements)) :
  Steady Γ Λ due (Stmt.ofList stmts).elements
  := by
  rw [Stmt.elements_ofList h.atomic]
  exact h

theorem single (helements : s.elements = [s]) (hcatches : s.catches = []) (h : Ok s Γ Λ due due due) :
  Steady Γ Λ due s.elements where
  atomic := by
    rw [helements, forall_mem_singleton]
    exact helements
  catches := by rw [Stmt.listCatches_elements, hcatches]
  chain := by
    rw [helements]
    refine ⟨Λ, due, h, ⟨rfl, rfl⟩, ?_, .inl (suffix_refl due)⟩
    cases s <;> try rfl
    case jumpCatch => cases hcatches

theorem ok (h : Steady Γ Λ due s.elements) :
  Ok s Γ Λ due due due
  := by
  have hchain := h.chain
  have hsingle (helements : s.elements = [s]) : Ok s Γ Λ due due due := by
    rw [helements] at hchain
    obtain ⟨_, _, hs, ⟨rfl, rfl⟩, -, -⟩ := hchain
    cases s <;> try exact hs
  cases s <;> try exact hsingle rfl
  case seq stmts => exact ⟨suffix_refl due, Λ, hchain⟩
  case skip => exact ⟨suffix_refl due, rfl⟩

theorem catches_eq (h : Steady Γ Λ due s.elements) :
  s.catches = []
  := by
  rw [← Stmt.listCatches_elements, h.catches]

/-! ### Statements with parts -/

theorem simple (hs : s.isSimple = true) (h : Γ.Values s.occurrences) :
  Steady Γ Λ due s.elements
  := by
  apply single
  · cases s <;> first | rfl | cases hs
  · cases s <;> first | rfl | cases hs
  · rw [ok_simple_iff hs]
    exact ⟨h, rfl, rfl⟩

theorem within (htry : Stmt.isTry names body = false) (h : Steady (Γ.set names .plain) Λ due body.elements) :
  Steady Γ Λ due (Stmt.within names body).elements
  := by
  rw [Stmt.within]
  split
  case isTrue hnil =>
    rw [List.isEmpty_iff.mp hnil] at h
    exact h
  case isFalse =>
    apply single rfl
    · rw [Stmt.catches, h.catches_eq]
    · rw [Ok, if_neg (by simp [htry])]
      exact ⟨suffix_refl due, [], h.ok⟩

theorem scope (special : List Ident) (htry : Stmt.isTry names body = false)
    (h : Steady (Γ.declare names special ⟨none, due, Λ⟩) Λ due body.elements) :
  Steady Γ Λ due (Stmt.scope names body).elements
  := by
  apply single rfl
  · rw [Stmt.catches, h.catches_eq]
  · rw [Ok, if_neg (by simp [htry])]
    exact ⟨suffix_refl due, special, h.ok⟩

theorem ifElse {cond : Operand} {yes no : Stmt} (hcond : Γ.Values cond.idents)
    (hyes : Steady Γ Λ due yes.elements) (hno : Steady Γ Λ due no.elements) :
  Steady Γ Λ due (Stmt.ifElse cond yes no).elements
  := by
  apply single rfl
  · rw [Stmt.catches, hyes.catches_eq, hno.catches_eq, append_nil]
  · exact ⟨hcond, rfl, hyes.ok, hno.ok⟩

theorem cases {arg : Operand} {pattern : Kernel.Pattern} {yes no : Stmt}
    (hvalues : Γ.Values (arg.idents ++ pattern.pinned))
    (hyes : Steady (Γ.set pattern.captures .plain) Λ due yes.elements) (hno : Steady Γ Λ due no.elements) :
  Steady Γ Λ due (Stmt.cases arg pattern yes no).elements
  := by
  apply single rfl
  · rw [Stmt.catches, hyes.catches_eq, hno.catches_eq, append_nil]
  · exact ⟨hvalues, rfl, hyes.ok, hno.ok⟩

theorem attempt {name : Ident} (hbody : Steady Γ Λ due body.elements)
    (hhandler : Steady (Γ.set [name] .plain) Λ due handler.elements) :
  Steady Γ Λ due (Stmt.attempt body name handler).elements
  := by
  apply single rfl
  · rw [Stmt.catches, hbody.catches_eq, hhandler.catches_eq, append_nil]
  · exact ⟨suffix_refl due, rfl, hhandler.catches_eq, hbody.ok, hhandler.ok⟩

end Steady

end Control

end ActorLang
