import Mathlib
import ActorLang.Proofs.Control.Systems

/-!
# Final parts run once

When control leaves an attempt, its final part has been invoked.  A jump leaves several attempts at
once, and invokes their final parts while all of their handlers are still there: then a throw can
bring control back, and a final part runs again.
-/

namespace ActorLang

open Kernel (Ident Stmt)
open List

/-- The final parts of attempts have been invoked as often as they should, and so they will after the next
step. -/
structure FinalsKept (σ : Session) (L : Ledger) : Prop where
  settled : ∀ e ∈ L.left, e.created = true → e.Settled
  once : ∀ e ∈ L.left, e.created = true → e.escapes = 0 → e.invoked = 1
  /-- It is too late to invoke the final part of an attempt that has been left. -/
  closed : ∀ e ∈ L.left, e.created = true → σ.called? ≠ some e.var
  bounded : ∀ e ∈ L.entries, e.invoked ≤ e.escapes + 1
  /-- Final parts are invoked from the inside out. -/
  inward : ∀ inner e outer, L.entries = inner ++ e :: outer → σ.called? = some e.var → ∀ e' ∈ inner, e'.Settled
  /-- If the final part has not been created then this is because it names something that is not there. -/
  uncreated : ∀ e ∈ L.entries, e.created = false → σ.hitsLimit = false → σ.step.2.height ≤ e.height →
    ∃ name, σ.fault? = some (.identNotFound name)

/-- Executing the statement enters an attempt with a final part. -/
def Opens (s : Stmt) : Prop :=
  ∀ (σ : Session) (env : Env) (rest : Stack), σ.stack = .stmt s env :: rest → ¬ σ.Limited →
    ∃ v, σ.opened? = some { var := v, height := rest.length }

theorem Entry.Settled.once {e : Entry} (h : e.Settled) (hescapes : e.escapes = 0) :
  e.invoked = 1
  := by
  obtain ⟨_, _⟩ := h
  omega

namespace Session

variable {σ : Session} {v : VarId}

theorem executes_of_executes? {s : Stmt} {env : Env} {rest : Stack} {result : Except Interrupt Next}
    (h : σ.executes? = some (s, env, rest, result)) :
  ∃ σ', σ.Executes s env rest result σ'
  := by
  rw [executes?] at h
  split at h
  next s' env' rest' hstack =>
    split at h
    next => cases h
    next hlimit =>
      obtain ⟨rfl, rfl, rfl, hresult⟩ : s' = s ∧ env' = env ∧ rest' = rest ∧
          ((Exec.stmt env' s').run (σ.popped rest')).1 = result := by
        simpa using h
      exact ⟨_, hstack, hlimit, Prod.ext hresult rfl⟩
  next => cases h

theorem executes_of_called? (h : σ.called? = some v) :
  ∃ s env rest next σ', σ.Executes s env rest (.ok next) σ' ∧ (entering rest env s next).bind (·.callee) = some v
  := by
  rw [called?, entered?] at h
  split at h
  next hexecutes =>
    obtain ⟨σ', hexec⟩ := executes_of_executes? hexecutes
    exact ⟨_, _, _, _, σ', hexec, h⟩
  next => cases h

end Session

namespace Control

variable {G : Tags} {V : View} {since : Since} {Λ : Labels} {caught due : Due} {σ : Session} {L : Ledger}
  {v : VarId} {s : Stmt} {env : Env} {rest : Stack} {entries left : List Entry} {height : Nat}

/-! ### The next step -/

/-- Only the final part that is due next can be invoked. -/
theorem Going.due_of_called (h : Going G V since Λ caught due σ L) (hcalled : σ.called? = some v) (hv : G.IsFinal v) :
  ∃ due', due = v :: due'
  := by
  obtain ⟨s, _, rest, _, _, hexec, hcallee⟩ := Session.executes_of_called? hcalled
  obtain ⟨_, _, _, ha⟩ := h.ahead hexec.stack
  obtain ⟨_, _, hrun, hled⟩ := led (h.apart.popped rest) ha.top ha.admits
  cases hrun.symm.trans hexec.run
  cases hled with
  | proceed _ _ _ _ hplain =>
    obtain ⟨r, hr, hfinal⟩ := hv
    rw [hplain v r hcallee hr] at hfinal
    cases hfinal
  | @invoke f w due'' _ _ _ _ hs hf hdue =>
    subst hs
    rw [Stmt.call, entering, Kernel.Operand.var?, hf] at hcallee
    cases hcallee
    exact ⟨due'', hdue⟩
  | opening _ hs =>
    subst hs
    cases hcallee

theorem Books.bounded (h : Books G entries left since due height) :
  ∀ e ∈ entries, e.invoked ≤ e.escapes + 1
  := by
  intro e he
  have hcount := (h.count e he).2
  cases hsince : since e.var with
  | none =>
    rw [hsince] at hcount
    exact Nat.le_succ_of_le hcount
  | some =>
    rw [hsince] at hcount
    exact hcount.2

theorem Going.finalsKept (h : Going G V since Λ caught due σ L) :
  FinalsKept σ L where
  settled e he hc := (h.books.gone e he hc).1
  once e he hc := (h.books.gone e he hc).1.once
  closed e he hc hcalled := by
    obtain ⟨-, hfinal, hapart⟩ := h.books.gone e he hc
    obtain ⟨_, hdue⟩ := h.due_of_called hcalled hfinal
    obtain ⟨n, hn⟩ := h.typed.listed.2.entered e.var (hdue ▸ mem_cons_self ..)
    obtain ⟨e', he', hplace⟩ := mem_map.mp hn
    exact hapart e' he' (congrArg Prod.fst hplace)
  bounded := h.books.bounded
  inward inner e outer hentries hcalled e' he' := by
    have he : e ∈ L.entries := by simp [hentries]
    have hmem : e' ∈ L.entries := by simp [hentries, he']
    obtain ⟨_, hdue⟩ := h.due_of_called hcalled (h.books.finals e he)
    -- what is due further in has a greater variable than what is due next
    have hgt : e.var < e'.var := by
      have horder := h.books.order
      rw [hentries, map_append] at horder
      exact (pairwise_append.mp horder).2.2 e'.var (mem_map_of_mem he') e.var (mem_cons_self ..)
    have hnot : e'.var ∉ due := by
      have horder := h.typed.listed.2.order
      rw [hdue] at horder ⊢
      intro hin
      rcases mem_cons.mp hin with heq | hin
      · exact Nat.ne_of_gt hgt heq
      · exact Nat.lt_asymm hgt ((pairwise_cons.mp horder).1 e'.var hin)
    have hcount := (h.books.count e' hmem).2
    cases hsince : since e'.var with
    | none => exact absurd ((h.books.pending e' hmem).mpr hsince) hnot
    | some =>
      rw [hsince] at hcount
      exact hcount
  uncreated e he hc := by
    rw [(h.books.count e he).1] at hc
    cases hc

section Trying

variable {f : Ident} {block attempt : Stmt} {Γ : Typing}

section

variable (h : Trying G V since Λ due f v block attempt env Γ rest entries σ L)

include h

theorem Trying.finalsKept (hcalled : σ.called? = none)
    (huncreated : σ.hitsLimit = false → σ.step.2.height ≤ rest.length → ∃ name, σ.fault? = some (.identNotFound name)) :
  FinalsKept σ L where
  settled e he hc := (h.books.gone e he hc).1
  once e he hc := (h.books.gone e he hc).1.once
  closed e _ _ hcall := by cases hcalled.symm.trans hcall
  bounded := by
    rw [h.entered]
    exact forall_mem_cons.mpr ⟨Nat.zero_le _, h.books.bounded⟩
  inward _ _ _ _ hcall := by cases hcalled.symm.trans hcall
  uncreated e he hc hlimit hheight := by
    rw [h.entered] at he
    rcases mem_cons.mp he with rfl | he
    · exact huncreated hlimit hheight
    · rw [(h.books.count e he).1] at hc
      cases hc

theorem Trying.finalsKept_limited {env' : Env} {rest' : Stack}
    (hstack : σ.stack = .stmt s env' :: rest') (hlimit : σ.Limited) :
  FinalsKept σ L
  := by
  refine h.finalsKept ?_ fun hhits => ?_
  · simp [Session.called?, Session.entered?, Session.executes?, hstack, hlimit]
  · simp [Session.hitsLimit, hstack, hlimit] at hhits

theorem Trying.finalsKept_opened
    (hstack : σ.stack = .stmt (.seq [.createProc [] block f, attempt, .call f]) env :: rest) :
  FinalsKept σ L
  := by
  by_cases hlimit : σ.Limited
  · exact h.finalsKept_limited hstack hlimit
  · have hexec : σ.Executes _ env rest (.ok (.enterAll _ env)) (σ.popped rest) := ⟨hstack, hlimit, rfl⟩
    refine h.finalsKept ?_ fun _ hheight => ?_
    · rw [Session.called?, hexec.entered?_ok]
      rfl
    · obtain ⟨_, _, _, _, _, _, hseq, -⟩ := Stmt.isTry_iff.mp h.opening.isTry
      cases hseq
      rw [hexec.step_ok] at hheight
      exact absurd hheight (Nat.not_le.mpr (Nat.lt_add_of_pos_right (k := 3) (by decide)))

theorem Trying.finalsKept_creating (hstack : σ.stack =
      .stmt (.createProc [] block f) env :: .stmt attempt env :: .stmt (.call f) env :: rest) :
  FinalsKept σ L
  := by
  by_cases hlimit : σ.Limited
  · exact h.finalsKept_limited hstack hlimit
  · obtain ⟨result, σ', hrun, hresult⟩ := h.creates _
    have hexec : σ.Executes _ env _ result σ' := ⟨hstack, hlimit, hrun⟩
    rcases hresult with ⟨rfl, _, hlater, -⟩ | ⟨x, rfl, rfl⟩
    · refine h.finalsKept ?_ fun _ hheight => ?_
      · rw [Session.called?, hexec.entered?_ok]
        rfl
      · have hstep : σ.step = (none, σ'.withStack (.stmt attempt env :: .stmt (.call f) env :: rest)) := by
          rw [hexec.step_ok, Session.proceed, hlater.stack]
          rfl
        rw [hstep] at hheight
        exact absurd hheight (Nat.not_le.mpr (Nat.lt_add_of_pos_right (k := 2) (by decide)))
    · refine h.finalsKept hexec.plain_error.called? fun _ _ => ⟨x, ?_⟩
      simp only [Session.fault?, hstack, if_neg hlimit, hrun]

end

end Trying

theorem Kept.finalsKept (h : Kept V σ L) :
  FinalsKept σ L
  := by
  cases h with
  | going h => exact h.finalsKept
  | opened hstack h => exact h.finalsKept_opened hstack
  | creating hstack h => exact h.finalsKept_creating hstack

/-! ### Attempts in programs -/

theorem opens_of_isTry {f : Ident} {body : Stmt} (h : Stmt.isTry [f] body = true) :
  Opens (.scope [f] body)
  := by
  intro σ env rest hstack hlimit
  have hexec : σ.Executes (.scope [f] body) env rest _ _ := ⟨hstack, hlimit, rfl⟩
  rw [hexec.opened?_ok, beginning, if_pos h]
  simp [Env.extend]

open Lowering

variable {c c' : Context} {target : Target} {F : List Ident}

theorem rethrows_of_guarded {body : Block} {catches : List Alternative} {f : Ident} (hc : Numbered c)
    (hknown : ∀ x ∈ f :: targetNames target, Known c x) (hbody : DisciplinedBlock F body)
    (hcatches : ∀ alt ∈ catches, DisciplinedAlternative F alt)
    (hrun : guarded body catches (some f) target c = .ok (s, c')) :
  ∃ attempted caught handler, s = .attempt attempted caught handler ∧ caught ≠ f ∧ Stmt.rethrows f caught handler = true
  := by
  obtain ⟨hf, htarget⟩ := forall_mem_cons.mp hknown
  obtain ⟨_, d, hattempted, hrun⟩ := bind_eq_ok_iff.mp hrun
  have hd := (hbody.into target hc htarget hattempted).1
  obtain ⟨_, _, hcaught, hrun⟩ := bind_eq_ok_iff.mp hrun
  obtain ⟨rfl, rfl⟩ := freshTemp_eq_ok_iff.mp hcaught
  have hd' := hd.trans hd.numbered.advances_fresh
  have hne : tempName d.next ≠ f := fun heq => hf d.next hd.next heq.symm
  dsimp only at hrun
  split at hrun
  next =>
    obtain ⟨rfl, rfl⟩ := pure_eq_ok_iff.mp hrun
    refine ⟨_, _, _, rfl, hne, ?_⟩
    simp [Stmt.ofList, Stmt.call, Stmt.elements, Stmt.rethrows]
  next =>
    obtain ⟨_, e, halternatives, hrun⟩ := bind_eq_ok_iff.mp hrun
    obtain ⟨_, _, hescaped, hrun⟩ := bind_eq_ok_iff.mp hrun
    obtain ⟨rfl, rfl⟩ := freshTemp_eq_ok_iff.mp hescaped
    obtain ⟨rfl, rfl⟩ := pure_eq_ok_iff.mp hrun
    have hold : ∀ x ∈ tempName d.next :: targetNames target, Known { d with next := d.next + 1 } x :=
      Sound.known_cons hd.numbered fun x hx => (htarget x hx).of_advances hd
    have he := hd'.trans (sound_catches target hcatches hd'.numbered hold halternatives).1
    have hne' : tempName e.next ≠ f := fun heq => hf e.next he.next heq.symm
    refine ⟨_, _, _, rfl, hne, ?_⟩
    simp [Stmt.ofList, Stmt.call, Stmt.elements, Stmt.rethrows, hne']

theorem opens_of_attempt {body : Block} {catches : List Alternative} {block : Block} (hc : Numbered c)
    (hknown : ∀ x ∈ targetNames target, Known c x) (hbody : DisciplinedBlock F body)
    (hcatches : ∀ alt ∈ catches, DisciplinedAlternative F alt)
    (hrun : attempt body catches (some block) target c = .ok (s, c')) :
  Opens s
  := by
  obtain ⟨f, d, hf, hrun⟩ := bind_eq_ok_iff.mp hrun
  obtain ⟨rfl, rfl⟩ := freshTemp_eq_ok_iff.mp hf
  obtain ⟨⟨_, _⟩, e, hattempted, hrun⟩ := bind_eq_ok_iff.mp hrun
  obtain ⟨final, _, -, hrun⟩ := bind_eq_ok_iff.mp hrun
  obtain ⟨rfl, rfl⟩ := pure_eq_ok_iff.mp hrun
  obtain ⟨_, hguarded, -, -⟩ := Lowering.inFrame_eq_ok hattempted
  have hname : ∀ x ∈ (JumpFrame.final (tempName c.next)).names, ∃ k < c.next + 1, x = tempName k := by
    rw [JumpFrame.names, forall_mem_singleton]
    exact ⟨c.next, Nat.lt_succ_self _, rfl⟩
  have hnumbered : Numbered { next := c.next + 1, frames := .final (tempName c.next) :: c.frames } :=
    hc.advances_fresh.numbered.enter rfl hname
  obtain ⟨_, _, _, rfl, hcaught, hrethrows⟩ :=
    rethrows_of_guarded hnumbered (Sound.known_cons hc hknown) hbody hcatches hguarded
  exact opens_of_isTry (Stmt.isTry_iff.mpr ⟨_, _, _, _, _, rfl, rfl, not_written_tempName _, hcaught, hrethrows⟩)

/-- Let a program be compiled, and run by a machine on its own or by the actors of a system.  In every state
of the run, the final part of each attempt that has been left was invoked: once, and once more at most for
each throw out of it, or out of that of an attempt around it, that was caught inside.  Final parts are invoked
from the inside out, and before the attempts are left.  Every attempt with a final part is among those that the
ledger has. -/
theorem final_parts_run_once {source : String} {s : Stmt} (hs : compile source = .ok s) (maxSteps : Nat) :
  (∀ n, FinalsKept (Watched.next^[n] (.ofProgram s maxSteps)).session
    (Watched.next^[n] (.ofProgram s maxSteps)).ledger) ∧
  (∀ x, System.Watched.Reaches (.ofProgram s maxSteps) x → ∀ i a, x.system.actors[i]? = some a →
    FinalsKept ⟨a.machine, x.system.world⟩ (x.ledgers i)) ∧
  ∀ span body catches final target c c' t, (Expr.mk span (.attempt body catches (some final))).Proper →
    Numbered c → (∀ x ∈ targetNames target, Known c x) →
    (ofForm span (.attempt body catches (some final))).into target c = .ok (t, c') → Opens t
  := by
  refine ⟨fun n => ?_, fun x hx i a ha => ?_, ?_⟩
  · obtain ⟨V, hkept⟩ := kept_of_compile hs maxSteps n
    exact hkept.finalsKept
  · obtain ⟨V, hheld⟩ := held_of_reaches hs maxSteps hx ha
    exact hheld.machine.finalsKept
  · intro _ body _ _ _ c _ t hproper hc hknown hrun
    cases hproper with
    | attempt _ hbody hpatterns hguards hbodies =>
      have hcatches := disciplined_ofClauses hpatterns (fun p g b h => sane_of_proper (hguards p g b h))
        (fun p g b h e he => sane_of_proper (hbodies p g b h e he)) (subset_append_right (freeList body) _)
      refine opens_of_attempt hc hknown (disciplined_block (fun e he => sane_of_proper (hbody e he)) ?_)
        hcatches hrun
      exact fun x hx => mem_append_left _ (mem_without.mp hx).1

/-- A jump leaves two attempts.  The final part of the inner one counts how often it runs, that of the outer one
throws. -/
def crossing : String :=
  "var runs = Cell.new(0)
proc f () in try try return finally runs := @runs + 1 end finally throw 'x' end end
try f() catch e then skip end
@runs"

theorem final_parts_run_once_crossing :
  ∃ s, compile crossing = .ok s ∧
    ∀ n, FinalsKept (Watched.next^[n] (.ofProgram s 0)).session (Watched.next^[n] (.ofProgram s 0)).ledger
  := by
  have hok : (compile crossing).isOk = true := by
    decide +kernel
  cases hs : compile crossing with
  | error => simp [hs, Except.toBool] at hok
  | ok s => exact ⟨s, rfl, (final_parts_run_once hs 0).1⟩

-- the run has more steps than the default depth allows for
set_option maxRecDepth 8000 in
/-- The inner attempt is entered once, and its final part completes normally.  But it runs twice: what the outer
final part throws is caught by the handler of the inner attempt, which has not been left yet. -/
theorem final_part_runs_twice :
  (compile crossing).toOption.bind (evaluate 100 · 0) = some { status := .done, value := "2" }
  := by
  cbv

end Control

end ActorLang
