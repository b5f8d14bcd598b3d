import ActorLang.Proofs.Control.FinalParts

/-!
# Throws out of final parts

A final part is called where its attempt has no handler left, or on the way of a jump, while the
handlers are still there.  Only in this case can a throw out of it be caught inside the attempt.
-/

namespace ActorLang

open Kernel (Ident Stmt)
open List

theorem Machine.handlerBelow_of_suffix {stack base : Stack} {found : Ident × Stmt × Env × Stack}
    (hsuffix : base <:+ stack) (h : handlerBelow stack = some found) (hlow : found.2.2.2.length < base.length) :
  handlerBelow base = some found
  := by
  obtain ⟨frames, rfl⟩ := hsuffix
  induction frames with
  | nil => exact h
  | cons frame frames ih =>
    cases frame with
    | stmt => exact ih h
    | handler =>
      cases h
      exact absurd hlow (Nat.not_lt.mpr (suffix_append frames base).length_le)

/-- The next step throws, and there is no handler left in the procedure. -/
def Session.ThrowsOut (σ : Session) (a : Activation) : Prop :=
  σ.throws = true ∧ Bare a.base.length σ.stack

theorem Session.executes_of_throws {σ : Session} (h : σ.throws = true) :
  ∃ s env rest e σ', σ.Executes s env rest (.error e) σ' ∧ ∀ v, e ≠ .suspend v
  := by
  rw [throws] at h
  split at h
  case h_3 => cases h
  all_goals
    obtain ⟨σ', hexec⟩ := executes_of_executes? ‹_›
    exact ⟨_, _, _, _, σ', hexec, by simp⟩

/-- A throw drops the stack, or goes on with the nearest handler. -/
theorem Session.landing_of_throws {σ : Session} (h : σ.throws = true) :
  (Machine.handlerBelow σ.stack = none ∧ σ.step.2.height = 0) ∨ ∃ caught s env env' below,
    Machine.handlerBelow σ.stack = some (caught, s, env, below) ∧
      σ.step.2.stack = below.push s env'
  := by
  obtain ⟨s, env, rest, e, σ', hexec, he⟩ := executes_of_throws h
  have hstack : σ'.stack = rest := by
    have hblind := (Exec.staged_stmt env s).blind.stack (σ.popped rest)
    rwa [hexec.run] at hblind
  obtain ⟨m, value, hm, hstep⟩ : ∃ (m : Machine) (value : Value), m.stack = rest ∧
      σ.step.2.machine = (m.unwind value).2 := by
    rw [hexec.step_error]
    cases e with
    | suspend v => exact absurd rfl (he v)
    | throw value => exact ⟨σ'.machine, value, hstack, rfl⟩
    | fault f => exact ⟨(σ'.faultValue f).2, (σ'.faultValue f).1, hstack, rfl⟩
  have hbelow : Machine.handlerBelow σ.stack = Machine.handlerBelow m.stack := by
    rw [hexec.stack, hm]
    rfl
  rw [height, hbelow, hstep]
  cases hfound : Machine.handlerBelow m.stack with
  | none =>
    rw [Machine.unwind_of_handlerBelow_none hfound]
    exact .inl ⟨rfl, rfl⟩
  | some found =>
    obtain ⟨caught, s, env, below⟩ := found
    rw [Machine.unwind_of_handlerBelow hfound]
    exact .inr ⟨caught, s, env, _, below, rfl, rfl⟩

instance (σ : Session) (a : Activation) : Decidable (σ.ThrowsOut a) := inferInstanceAs (Decidable (_ ∧ _))

/-- A throw out of the final part of the entry at this place, or of one around it, is caught inside, and
the final part was called on the way of a jump. -/
def Watched.Escapes (x : Watched) (place : VarId × Nat) : Prop :=
  ∃ inner e outer, x.ledger.entries = inner ++ e :: outer ∧ e.place = place ∧
    e.height < x.session.step.2.height ∧ ∃ e' ∈ e :: outer, ∃ a ∈ x.ledger.activations,
      a.callee = some e'.var ∧ Leaving e'.height a.base ∧ x.session.ThrowsOut a

/-- Throws out of final parts go where they should in the next step. -/
structure ThrowsKept (σ : Session) (L : Ledger) : Prop where
  /-- Where a final part was called, the attempt has no handler left, or a jump is leaving it. -/
  called : ∀ e ∈ L.entries, ∀ a ∈ L.activations, a.callee = some e.var →
    Bare e.height a.base ∨ Leaving e.height a.base
  /-- Unless a jump has called the final part, a throw out of it leaves the attempt. -/
  outside : ∀ e ∈ L.entries, ∀ a ∈ L.activations, a.callee = some e.var → ¬ Leaving e.height a.base →
    σ.ThrowsOut a → σ.step.2.height ≤ e.height
  inside : ∀ inner e outer, L.entries = inner ++ e :: outer → σ.escapes L.activations e outer = true →
    Watched.Escapes ⟨σ, L⟩ e.place

namespace Control

section Kept

variable {V : View} {σ : Session} {L : Ledger} (h : Kept V σ L)

include h

/-- The invariant, without the statements that begin an attempt. -/
theorem Kept.typed :
  ∃ G since places stack Λ caught due, Typed G V (Noted places since) L.activations stack Λ caught due ∧
    stack <:+ σ.stack ∧ Machine.handlerBelow σ.stack = Machine.handlerBelow stack ∧
    (∀ e ∈ L.entries, e.place ∈ places ∨ stack.length ≤ e.height) ∧ (L.entries.map (·.height)).Pairwise (· ≥ ·)
  := by
  have htrying {G : Tags} {since : Since} {Λ : Labels} {due : Due} {f : Ident} {v : VarId}
      {block attempt : Stmt} {env : Env} {Γ : Typing} {rest : Stack} {entries : List Entry}
      (h : Trying G V since Λ due f v block attempt env Γ rest entries σ L) :
      (∀ e ∈ L.entries, e.place ∈ entries.map Entry.place ∨ rest.length ≤ e.height) ∧
        (L.entries.map (·.height)).Pairwise (· ≥ ·) := by
    rw [h.entered]
    refine ⟨forall_mem_cons.mpr ⟨.inr (Nat.le_refl _), fun e he => .inl (mem_map_of_mem he)⟩,
      pairwise_cons.mpr ⟨forall_mem_map.mpr fun e he => ?_, h.books.nested⟩⟩
    exact Nat.le_of_lt_succ (h.books.heights e he)
  cases h with
  | going h =>
    exact ⟨_, _, _, _, _, _, _, h.typed, suffix_refl _, rfl, fun e he => .inl (mem_map_of_mem he), h.books.nested⟩
  | opened hstack h =>
    rw [hstack]
    exact ⟨_, _, _, _, _, _, _, h.opening.rest, suffix_cons _ _, rfl, htrying h⟩
  | creating hstack h =>
    rw [hstack]
    exact ⟨_, _, _, _, _, _, _, h.opening.rest, ⟨[_, _, _], rfl⟩, rfl, htrying h⟩

theorem Kept.landing (hthrows : σ.throws = true) :
  (Machine.handlerBelow σ.stack = none ∧ σ.step.2.height = 0) ∨
    ∃ found, Machine.handlerBelow σ.stack = some found ∧ σ.step.2.height = found.2.2.2.length + 1
  := by
  refine (Session.landing_of_throws hthrows).imp_right ?_
  rintro ⟨_, s, _, _, below, hbelow, hstack⟩
  obtain ⟨_, _, _, _, _, _, _, htyped, -, hsame, -⟩ := h.typed
  obtain ⟨_, _, _, _, _, hc⟩ := htyped.throw (hsame.symm.trans hbelow)
  refine ⟨_, hbelow, ?_⟩
  rw [Session.height, hstack]
  cases s with
  | jumpCatch => cases hc.catches
  | _ => rfl

variable {e : Entry} {a : Activation}

theorem Kept.called (he : e ∈ L.entries) (ha : a ∈ L.activations) (hcallee : a.callee = some e.var) :
  Bare e.height a.base ∨ Leaving e.height a.base
  := by
  obtain ⟨_, _, _, _, _, _, _, htyped, -, -, hplaces, -⟩ := h.typed
  by_cases hlow : a.base.length ≤ e.height
  · exact .inl fun found hfound => Nat.lt_of_lt_of_le (Machine.handlerBelow_suffix hfound).length_le hlow
  · obtain ⟨_, hnoted⟩ := htyped.entered a ha
    have hplace := (hplaces e he).resolve_right fun hle =>
      hlow (Nat.le_trans (htyped.base_suffix a ha).length_le hle)
    exact (hnoted.begun a rfl e.var e.height hplace (Nat.lt_of_not_le hlow)).2 hcallee

/-- A throw out of a procedure that was called where the stack is bare goes on outside. -/
theorem Kept.height_of_throwsOut {height : Nat} (ha : a ∈ L.activations) (hbare : Bare height a.base)
    (hout : σ.ThrowsOut a) :
  σ.step.2.height ≤ height
  := by
  rcases h.landing hout.1 with ⟨-, hzero⟩ | ⟨found, hfound, hheight⟩
  · rw [hzero]
    exact Nat.zero_le _
  · obtain ⟨_, _, _, _, _, _, _, htyped, hsuffix, -⟩ := h.typed
    have hbase := (htyped.base_suffix a ha).trans hsuffix
    rw [hheight]
    exact hbare found (Machine.handlerBelow_of_suffix hbase hfound (hout.2 found hfound))

theorem Kept.throwsKept :
  ThrowsKept σ L where
  called _ he _ ha hcallee := h.called he ha hcallee
  outside _ he _ ha hcallee hleaving hout :=
    h.height_of_throwsOut ha ((h.called he ha hcallee).resolve_right hleaving) hout
  inside inner e outer hentries hescapes := by
    simp only [Session.escapes, Bool.and_eq_true, decide_eq_true_eq, any_eq_true] at hescapes
    obtain ⟨⟨hthrows, hheight⟩, a, ha, hbase, e', he', hcallee⟩ := hescapes
    have hout : σ.ThrowsOut a := by
      refine ⟨hthrows, fun found hfound => ?_⟩
      rcases h.landing hthrows with ⟨hnone, -⟩ | ⟨found', hfound', hlanding⟩
      · cases hnone.symm.trans hfound
      · cases hfound'.symm.trans hfound
        exact Nat.lt_of_lt_of_le (Nat.lt_of_lt_of_eq (Nat.lt_succ_self _) hlanding.symm) hbase
    refine ⟨inner, e, outer, hentries, rfl, hheight, e', he', a, ha, hcallee, ?_, hout⟩
    refine (h.called (hentries ▸ mem_append_right _ he') ha hcallee).resolve_left fun hbare => ?_
    have houtside := h.height_of_throwsOut ha hbare hout
    have hle : e'.height ≤ e.height := by
      obtain ⟨_, _, _, _, _, _, _, -, -, -, -, hnested⟩ := h.typed
      rw [hentries, map_append] at hnested
      rcases mem_cons.mp he' with rfl | he'
      · exact Nat.le_refl _
      · exact (pairwise_cons.mp (pairwise_append.mp hnested).2.1).1 _ (mem_map_of_mem he')
    omega

end Kept

end Control

theorem Session.escapes_of_opened? {σ : Session} {e : Entry} (h : σ.opened? = some e) :
  e.escapes = 0
  := by
  rw [opened?] at h
  split at h
  · rw [beginning.eq_def] at h
    repeat' split at h
    all_goals simp at h
    obtain ⟨_, -, rfl⟩ := h
    rfl
  · cases h

/-- The escapes that a ledger has counted are steps of the run. -/
theorem Watched.escapes_of_counted {x : Watched} (hx : x.ledger = {})
    (hkept : ∀ n, ThrowsKept (next^[n] x).session (next^[n] x).ledger) (n : Nat) :
  ∀ e ∈ (next^[n] x).ledger.entries ++ (next^[n] x).ledger.left, 0 < e.escapes → ∃ m < n, (next^[m] x).Escapes e.place
  := by
  induction n with
  | zero => simp [hx]
  | succ n ih =>
    have hinside := (hkept n).inside
    rw [Function.iterate_succ_apply']
    generalize hy : next^[n] x = y at ih hinside ⊢
    have hbefore (e : Entry) (he : e ∈ y.ledger.entries ++ y.ledger.left) (hpos : 0 < e.escapes) :
        ∃ m < n + 1, (next^[m] x).Escapes e.place := by
      obtain ⟨m, hm, hescapes⟩ := ih e he hpos
      exact ⟨m, Nat.lt_succ_of_lt hm, hescapes⟩
    have hnoted (e : Entry) (he : e ∈ y.session.opened?.toList ++
        y.session.noteAll y.ledger.activations y.ledger.entries) (hpos : 0 < e.escapes) :
        ∃ m < n + 1, (next^[m] x).Escapes e.place := by
      rcases mem_append.mp he with he | he
      · rw [Session.escapes_of_opened? (Option.mem_toList.mp he)] at hpos
        cases hpos
      · obtain ⟨inner, e, outer, hentries, rfl⟩ := Session.mem_noteAll he
        by_cases hescapes : y.session.escapes y.ledger.activations e outer = true
        · subst hy
          exact ⟨n, Nat.lt_succ_self n, hinside inner e outer hentries hescapes⟩
        · refine hbefore e (by simp [hentries]) ?_
          simpa [Session.note, hescapes] using hpos
    intro e he
    rcases mem_append.mp he with he | he
    · exact hnoted e (mem_of_mem_filter he)
    · rcases mem_append.mp he with he | he
      · split at he
        · cases he
        · exact hnoted e (mem_of_mem_filter he)
      · obtain ⟨e, hmem, rfl⟩ := mem_map.mp he
        exact hbefore e (mem_append_right _ hmem)

/-- What has been left stays on the list of what has been left. -/
theorem Watched.left_next (x : Watched) (n : Nat) :
  ∀ e ∈ x.ledger.left, ∃ e' ∈ (next^[n] x).ledger.left, e'.var = e.var ∧ e'.created = e.created
  := by
  induction n generalizing x with
  | zero => exact fun e he => ⟨e, he, rfl, rfl⟩
  | succ n ih =>
    intro e he
    exact ih x.next (x.session.countCall e) (mem_append_right _ (mem_map_of_mem he))

/-- An entry that a throw leaves is then on that list. -/
theorem Watched.mem_left_next {x : Watched} {e : Entry} (he : e ∈ x.ledger.entries)
    (hcreated : e.created = true) (hthrows : x.session.throws = true)
    (hheight : x.session.step.2.height ≤ e.height) :
  ∃ e' ∈ x.next.ledger.left, e'.var = e.var ∧ e'.created = true
  := by
  obtain ⟨_, _, _, _, _, hexec, -⟩ := Session.executes_of_throws hthrows
  obtain ⟨outer, hnoted⟩ : ∃ outer, x.session.note x.ledger.activations e outer ∈ _ := Session.exists_mem_noteAll he
  refine ⟨x.session.note x.ledger.activations e outer, mem_append_left _ ?_, rfl, by simp [Session.note, hcreated]⟩
  rw [if_neg (by simp [hexec.hitsLimit])]
  exact mem_filter.mpr ⟨mem_append_right _ hnoted, decide_eq_true hheight⟩

/-- The state of a machine, and its ledger, after so many steps of running a program. -/
def Watched.run (s : Stmt) (maxSteps n : Nat) : Watched := next^[n] (.ofProgram s maxSteps)

namespace Control

/-- A procedure returns from an attempt whose final part throws. -/
def returning : String :=
  "var seen = Cell.new('nothing')
proc f () in try return catch e then seen := e finally throw 'w' end end
try f() catch e then skip end
@seen"

/-- A final part that has been started again is thrown out of, and it was not called on the way of a jump. -/
def throwsAgain (x : Watched) : Bool :=
  x.ledger.entries.any fun e => e.created && decide (1 < e.invoked) && x.ledger.activations.any fun a =>
    a.callee = some e.var && !decide (Leaving e.height a.base) && decide (x.session.ThrowsOut a)

end Control

end ActorLang
