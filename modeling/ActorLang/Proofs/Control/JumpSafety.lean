import ActorLang.Proofs.Control.Systems

/-!
# Safety of jumps

A jump of a compiled program always finds the catch of its label.  It only unwinds the activation
that the label belongs to, on a machine of its own or in the turns of actors.
-/

namespace ActorLang

open Kernel (Stmt)

/-- The next step misses no catch.  If it is a jump, it goes to a catch of its label, which belongs to
the innermost of the activations that have one. -/
structure JumpSafe (σ : Session) (acts : List Activation) : Prop where
  caught : ∀ label, σ.fault? ≠ some (.jump label)
  lands : ∀ label env rest, σ.stack = .stmt (.jumpThrow label) env :: rest → ¬ σ.Limited →
    ∃ below, Stack.unwindTo label rest = some below ∧ σ.step = (none, (σ.popped rest).withStack below) ∧
      ∃ a, acts.find? (label ∈ ·.body.catches) = some a ∧ (a.base <:+ below ∨
          ∃ env' below', a.base = .stmt (.jumpCatch label) env' :: below' ∧ below' <:+ below)

namespace Control

variable {G : Tags} {V : View} {since : Since} {Λ : Labels} {caught due : Due} {σ σ' : Session}
  {L : Ledger} {rest : Stack}

theorem Led.no_jump {P : Nat → Mark → Due → Prop} {acts : List Activation} {s : Stmt} {env : Env}
    {result : Except Interrupt Next} (h : Led G V P acts rest caught due s env σ result σ')
    (hstack : σ.stack = rest) (label : Nat) :
  (∀ next, result = .ok next → next.onStack σ'.stack ≠ .error (.jump label)) ∧
    result ≠ .error (.fault (.jump label))
  := by
  cases h with
  | proceed hlater hon =>
    refine ⟨?_, nofun⟩
    rintro _ ⟨⟩ herror
    rw [hlater.stack, hstack, hon] at herror
    cases herror
  | invoke | opening =>
    refine ⟨?_, nofun⟩
    rintro _ ⟨⟩ herror
    cases herror
  | interrupt _ he =>
    refine ⟨nofun, ?_⟩
    rintro ⟨⟩
    cases he

theorem Going.not_fault (h : Going G V since Λ caught due σ L) (label : Nat) :
  σ.fault? ≠ some (.jump label)
  := by
  intro hfault
  rcases Session.fault?_eq_some hfault with hlimit | ⟨s, _, rest, _, hstack, hcause⟩
  · cases hlimit
  · obtain ⟨_, _, _, ha⟩ := h.ahead hstack
    obtain ⟨_, _, hrun, hled⟩ := led (h.apart.popped rest) ha.top ha.admits
    obtain ⟨hok, herror⟩ := hled.no_jump rfl label
    rcases hcause with ⟨next, hrun', hon⟩ | hrun'
    · cases hrun.symm.trans hrun'
      exact hok next rfl hon
    · cases hrun.symm.trans hrun'
      exact herror rfl

theorem Kept.not_fault (h : Kept V σ L) (label : Nat) :
  σ.fault? ≠ some (.jump label)
  := by
  cases h with
  | going h => exact h.not_fault label
  | opened hstack =>
    intro hfault
    rcases Session.fault?_eq_some hfault with hlimit | ⟨_, _, _, _, hstack', hcause⟩
    · cases hlimit
    · cases hstack.symm.trans hstack'
      rcases hcause with ⟨_, hrun, hon⟩ | hrun
      · cases hrun
        cases hon
      · cases hrun
  | creating hstack h =>
    intro hfault
    rcases Session.fault?_eq_some hfault with hlimit | ⟨_, _, _, _, hstack', hcause⟩
    · cases hlimit
    · cases hstack.symm.trans hstack'
      obtain ⟨_, _, hrun, hresult⟩ := h.creates _
      rcases hcause with ⟨_, hrun', hon⟩ | hrun'
      all_goals
        cases hrun.symm.trans hrun'
        obtain ⟨⟨⟩, -⟩ | ⟨x, ⟨⟩, -⟩ := hresult
      cases hon

theorem Kept.jumpSafe (h : Kept V σ L) :
  JumpSafe σ L.activations
  := by
  refine ⟨h.not_fault, fun label env rest hstack hlimit => ?_⟩
  cases h with
  | opened hstack' | creating hstack' => cases hstack'.symm.trans hstack
  | going h =>
    obtain ⟨_, _, _, ha⟩ := h.ahead hstack
    obtain ⟨below, _, _, _, hunwind, -, hlanded⟩ := ha.top.rest.jump ha.top.ok
    have hexec : σ.Executes (.jumpThrow label) env rest (.ok (.jump label)) (σ.popped rest) :=
      ⟨hstack, hlimit, rfl⟩
    refine ⟨below, hunwind, ?_, hlanded.own⟩
    rw [hexec.step_ok, Session.proceed]
    simp only [Next.onStack, Session.popped, hunwind]
    rfl

/-- Jumps of compiled programs are safe, in every state that a machine with any limit of steps can reach
on its own, and in every state that an actor can reach in a system. -/
theorem jumps_find_their_catch {source : String} {s : Stmt} (hs : compile source = .ok s)
    (maxSteps : Nat) :
  (∀ n, JumpSafe (Watched.next^[n] (.ofProgram s maxSteps)).session
    (Watched.next^[n] (.ofProgram s maxSteps)).ledger.activations) ∧
  ∀ x, System.Watched.Reaches (.ofProgram s maxSteps) x → ∀ i a, x.system.actors[i]? = some a →
    JumpSafe ⟨a.machine, x.system.world⟩ (x.ledgers i).activations
  := by
  constructor
  · intro n
    obtain ⟨V, hkept⟩ := kept_of_compile hs maxSteps n
    exact hkept.jumpSafe
  · intro x hx i a ha
    obtain ⟨V, hheld⟩ := held_of_reaches hs maxSteps hx ha
    exact hheld.machine.jumpSafe

/-- A loop that is left from inside a `try` with a final part. -/
def countdown : String :=
  "var c = Cell.new(3) while true do try if @c == 0 then break end c := @c - 1 finally skip end end @c"

theorem jumps_find_their_catch_countdown :
  ∃ s, compile countdown = .ok s ∧
    ∀ n, JumpSafe (Watched.next^[n] (.ofProgram s 1000)).session
      (Watched.next^[n] (.ofProgram s 1000)).ledger.activations
  := by
  have hok : (compile countdown).isOk = true := by
    decide +kernel
  cases hs : compile countdown with
  | error => simp [hs, Except.toBool] at hok
  | ok s => exact ⟨s, rfl, (jumps_find_their_catch hs 1000).1⟩

end Control

end ActorLang
