import ActorLang.Evaluation
import ActorLang.Proofs.Control.Programs
import ActorLang.Proofs.Control.Runs

/-!
# What hosts do

Between the steps of a run the host of a machine may do something to it.  A calm session stays calm
when its store grows, when a response comes in, when a procedure is put on the stack, and when what
it has to do is dropped.
-/

namespace ActorLang

open Kernel (Ident Operand Stmt)
open List

namespace Ledger

variable {L : Ledger} {n : Nat}

theorem cut_self (hentries : ∀ e ∈ L.entries, e.height < n) (hacts : ∀ a ∈ L.activations, a.base.length < n) :
  L.cut n = L
  := by
  have hhigh : L.entries.filter (·.height < n) = L.entries :=
    filter_eq_self.mpr fun e he => decide_eq_true (hentries e he)
  have hlive : live n L.activations = L.activations :=
    filter_eq_self.mpr fun a ha => decide_eq_true (hacts a ha)
  simp only [cut, hhigh, hlive]

theorem cut_zero (L : Ledger) :
  L.cut 0 = { left := L.left }
  := by
  simp [cut, live]

end Ledger

theorem Definition.plain_absent :
  Definition.Plain (Closure.definition {})
  := ⟨fun _ => .plain, nofun, fun due => ⟨suffix_refl due, rfl⟩⟩

def View.start : View where
  vars _ := False
  procs _ := False
  cfgs _ := False
  names _ := True

namespace Control

variable {G : Tags} {V W : View} {since : Since} {Λ : Labels} {caught due : Due} {σ : Session}
  {m m' : Machine} {w w' : World} {L : Ledger} {s : Stmt} {env : Env}

theorem Apart.grown (h : Apart G V ⟨m, w⟩) (htame : m'.Tame W Definition.Plain)
    (hgrown : Store.Grown V W m.store m'.store) (hw : w'.Tame Definition.Plain) :
  Apart G W ⟨m', w'⟩
  := ⟨⟨htame, hw⟩, h.tagged.grown hgrown, hgrown.le.names.symm ▸ h.names⟩

/-! ### The invariant -/

theorem Kept.withWorld (h : Kept V ⟨m, w⟩ L) (hw : w'.Tame Definition.Plain) :
  Kept V ⟨m, w'⟩ L
  := by
  cases h with
  | going h => exact .going ⟨h.apart.grown h.apart.tame.machine (.refl V _) hw, h.typed, h.books, h.alive⟩
  | opened hstack h =>
    exact .opened hstack ⟨h.apart.grown h.apart.tame.machine (.refl V _) hw, h.entered, h.opening, h.books⟩
  | creating hstack h =>
    exact .creating hstack ⟨h.apart.grown h.apart.tame.machine (.refl V _) hw, h.entered, h.opening, h.books⟩

theorem Kept.tame (h : Kept V σ L) :
  σ.Tame V Definition.Plain
  := by
  cases h with
  | going h | opened _ h | creating _ h => exact h.apart.tame

theorem Going.low (h : Going G V since Λ caught due σ L) :
  (∀ e ∈ L.entries, e.height < σ.height) ∧ ∀ a ∈ L.activations, a.base.length < σ.height
  := by
  refine ⟨h.books.heights, fun a ha => ?_⟩
  exact of_decide_eq_true (filter_eq_self.mp h.alive a ha)

theorem Kept.cut (h : Kept V σ L) :
  L.cut σ.height = L
  := by
  have htrying {G : Tags} {since : Since} {Λ : Labels} {due : Due} {f : Ident} {v : VarId}
      {block attempt : Stmt} {env : Env} {Γ : Typing} {rest : Stack} {entries : List Entry}
      (h : Trying G V since Λ due f v block attempt env Γ rest entries σ L)
      (hlt : rest.length < σ.height) : L.cut σ.height = L := by
    refine Ledger.cut_self ?_ fun a ha => Nat.lt_of_le_of_lt (h.base_le a ha) hlt
    rw [h.entered]
    refine forall_mem_cons.mpr ⟨hlt, fun e he => ?_⟩
    exact Nat.lt_of_le_of_lt (Nat.le_of_lt_succ (h.books.heights e he)) hlt
  cases h with
  | going h => exact Ledger.cut_self h.low.1 h.low.2
  | opened hstack h => exact htrying h (by simp [Session.height, hstack])
  | creating hstack h =>
    refine htrying h ?_
    simp only [Session.height, hstack, length_cons]
    omega

/-! ### Calm sessions -/

theorem Calm.kept (h : Calm V σ L) :
  Kept V σ L
  := by
  obtain ⟨G, _, _, _, h⟩ := h
  exact .going h

theorem Going.grown (h : Going G V since Λ caught due ⟨m, w⟩ L) (htame : m'.Tame W Definition.Plain)
    (hgrown : Store.Grown V W m.store m'.store) (hstack : m'.stack = m.stack)
    (hw : w'.Tame Definition.Plain) :
  Going G W since Λ caught due ⟨m', w'⟩ L
  := by
  refine ⟨h.apart.grown htame hgrown hw, ?_, ?_, ?_⟩
  · rw [hstack]
    exact h.typed.mono G.le_refl hgrown.le fun _ _ _ _ => id
  · rw [Session.height, hstack]
    exact h.books
  · rw [Session.height, hstack]
    exact h.alive

theorem Calm.grown (h : Calm V ⟨m, w⟩ L) (htame : m'.Tame W Definition.Plain)
    (hgrown : Store.Grown V W m.store m'.store) (hstack : m'.stack = m.stack)
    (hw : w'.Tame Definition.Plain) :
  Calm W ⟨m', w'⟩ L
  := by
  obtain ⟨G, since, Λ, due, h⟩ := h
  exact ⟨G, since, Λ, due, h.grown htame hgrown hstack hw⟩

theorem Going.push {Γ : Typing} (h : Going G V since Λ due due ⟨m, w⟩ L) (hs : Ok s Γ Λ due due due)
    (hΓ : ∀ x r, Γ x ≠ .special r) (henv : ∀ b ∈ env, V.vars b.2) (hcatches : s.catches = []) :
  Going G V since (Λ.catching due s) due due ⟨m.push s env, w⟩ L
  := by
  have hpush : (m.push s env).stack = .stmt s env :: m.stack := by
    cases s with
    | jumpCatch => cases hcatches
    | _ => rfl
  have hnoted : Noted (L.entries.map Entry.place) since (m.stack.length + 1) .stmt due := by
    refine { h.typed.listed.2 with outside := ?_, handled := nofun, begun := nofun }
    intro v n hv _
    obtain ⟨e, he, hplace⟩ := mem_map.mp hv
    cases hplace
    have hlt : e.height < m.stack.length := h.books.heights e he
    omega
  refine ⟨?_, ?_, ?_, ?_⟩
  · exact h.apart.grown (h.apart.tame.machine.withStack _) (.refl V _) h.apart.tame.world
  · rw [hpush]
    refine .stmt h.typed hs (suits_of_sealed hΓ henv) ?_ hnoted
    rw [hcatches]
    exact nofun
  · rw [Session.height, hpush]
    exact { h.books with heights := fun e he => Nat.lt_succ_of_lt (h.books.heights e he) }
  · rw [Session.height, hpush]
    refine filter_eq_self.mpr fun a ha => decide_eq_true ?_
    exact Nat.lt_succ_of_lt (h.low.2 a ha)

theorem Calm.push (h : Calm V ⟨m, w⟩ L) (hs : ∀ Λ due, Ok s (fun _ => .plain) Λ due due due)
    (henv : ∀ b ∈ env, V.vars b.2) (hcatches : s.catches = []) :
  Calm V ⟨m.push s env, w⟩ L
  := by
  obtain ⟨G, since, Λ, due, h⟩ := h
  exact ⟨G, since, _, due, h.push (hs Λ due) nofun henv hcatches⟩

theorem Calm.received (h : Calm V ⟨m, w⟩ L) (hr : Machine.Received V W Definition.Plain m m') :
  Calm W ⟨m', w⟩ L
  := by
  have hw := h.kept.tame.world
  rcases hr.stack with hstack | ⟨v, hv, hstack⟩
  · exact h.grown hr.tame hr.grown hstack hw
  · have hgrown : Calm W ⟨{ m' with stack := m.stack }, w⟩ L :=
      h.grown (hr.tame.withStack _) hr.grown rfl hw
    have hok (Λ : Labels) (due : Due) :
        Ok (.throw (.ident "$failure")) (fun _ => .plain) Λ due due due :=
      ⟨fun _ _ => trivial, rfl⟩
    have henv : ∀ b ∈ [("$failure", v)], W.vars b.2 := forall_mem_singleton.mpr hv
    have hpushed := hgrown.push hok henv rfl
    have hsame : Machine.push { m' with stack := m.stack } (.throw (.ident "$failure")) [("$failure", v)] = m' := by
      rw [Machine.push]
      simp only [← hstack]
    rwa [hsame] at hpushed

theorem Calm.pushApply (h : Calm V ⟨m, w⟩ L) {proc : Value} (hproc : proc.In V) {args : List VarId}
    (hargs : ∀ v ∈ args, V.vars v) :
  ∃ W, V ≤ W ∧ Calm W ⟨m.pushApply proc args, w⟩ L
  := by
  obtain ⟨W, htame, hgrown, hp⟩ := h.kept.tame.machine.store.newBound hproc
  have hcalm : Calm W ⟨(m.onStore (·.newBound proc)).2, w⟩ L :=
    h.grown (h.kept.tame.machine.withStore htame hgrown.le) hgrown rfl h.kept.tame.world
  have hok (args : List Operand) (Λ : Labels) (due : Due) :
      Ok (.apply (.ident "$proc") args) (fun _ => .plain) Λ due due due :=
    ⟨fun _ _ => trivial, rfl, rfl⟩
  refine ⟨W, hgrown.le, hcalm.push (hok _) ?_ rfl⟩
  intro b hb
  rw [Env.extend, append_nil, mem_reverse, mem_cons] at hb
  rcases hb with rfl | hb
  · exact hp
  · exact hgrown.le.vars _ (hargs b.2 (of_mem_zip hb).2)

theorem Calm.abandon (h : Calm V ⟨m, w⟩ L) :
  Calm V ⟨m.abandon, w⟩ (L.cut 0)
  := by
  obtain ⟨G, since, _, _, h⟩ := h
  rw [Ledger.cut_zero]
  have htame : m.abandon.Tame V Definition.Plain :=
    ⟨h.apart.tame.machine.store, forall_mem_nil _, h.apart.tame.machine.spawns⟩
  exact ⟨G, since, .none, [], h.apart.grown htame (.refl V _) h.apart.tame.world, .nil, h.books.nil since [] 0, rfl⟩

/-! ### New sessions -/

def Tags.empty : Tags where
  vars _ := none
  procs _ := none

theorem going_create (maxSteps : Nat) (self : Option ActorId) (hw : w.Tame Definition.Plain) :
  ∃ V, Going .empty V (fun _ => none) .none [] [] ⟨.create maxSteps self, w⟩ {} ∧
    ∀ b ∈ (Machine.create maxSteps self).root, V.vars b.2
  := by
  obtain ⟨V, hready, hgrown⟩ :=
    Machine.ready_create Definition.plain_absent View.start maxSteps self
  have hshows : Store.Shows {} View.start := ⟨fun _ h => h.elim, fun _ h => h.elim, fun _ h => h.elim⟩
  have hstack : (Machine.create maxSteps self).stack = [] := rfl
  have hapart : Apart .empty V ⟨.create maxSteps self, w⟩ := by
    refine ⟨⟨hready.tame, hw⟩, ⟨hshows.grown hgrown, ?_, ?_, ?_⟩, ?_⟩
    · exact nofun
    · exact nofun
    · exact nofun
    · rw [hgrown.le.names]
      exact fun _ => trivial
  refine ⟨V, ⟨hapart, ?_, ⟨.nil, .nil, ?_, ?_, ?_, ?_, ?_⟩, rfl⟩, hready.root⟩
  · rw [hstack]
    exact .nil
  all_goals exact forall_mem_nil _

theorem calm_load {source : String} (hs : compile source = .ok s) (maxSteps : Nat)
    (self : Option ActorId) (hw : w.Tame Definition.Plain) :
  ∃ V, Calm V ⟨((Machine.create maxSteps self).load s).2, w⟩ {}
  := by
  obtain ⟨V, hgoing, hroot⟩ := going_create maxSteps self hw
  have hsteady := steady_of_compile target_programResult hs []
  obtain ⟨W, htame, hgrown, hv⟩ := hgoing.apart.tame.machine.store.newVar
  have hdeclared : Going .empty W (fun _ => none) .none [] []
      ⟨((Machine.create maxSteps self).declare Kernel.programResult).2, w⟩ {} :=
    hgoing.grown ⟨htame, fun b hb => hgrown.le.vars _ (hgoing.apart.tame.machine.pending b hb),
      hgoing.apart.tame.machine.spawns⟩ hgrown rfl hw
  have henv : ∀ b ∈ ((Machine.create maxSteps self).declare Kernel.programResult).2.root, W.vars b.2 :=
    forall_mem_cons.mpr ⟨hv, fun b hb => hgrown.le.vars _ (hroot b hb)⟩
  have hpushed := hdeclared.push hsteady.ok nofun henv hsteady.catches_eq
  exact ⟨W, _, _, _, _, hpushed⟩

end Control

end ActorLang
