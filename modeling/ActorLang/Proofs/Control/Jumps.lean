import ActorLang.Proofs.Control.Alternatives

/-!
# Loops, attempts and jumps keep the discipline

A loop is a procedure that calls itself, an attempt with a final part a procedure that all ways
out of it call.  A jump runs the final parts between its place and the catch of its label.
-/

namespace ActorLang

open Kernel (Ident Operand Stmt resultIdent messageIdent)
open List
open Lowering

variable {stmts : List Stmt} {label onBreak : Option Nat} {body start : Block}
  {again x name caught f result : Ident} {F names finals params old : List Ident}
  {catches : List Alternative} {span : Span} {point : ReturnPoint} {hasResult isBreak : Bool}
  {standIn : Option Ident} {c d c' : Context} {s round : Stmt}

namespace Control

variable {Γ : Typing} {Λ Λ₀ : Labels} {due due' : Due}

/-! ### Loops -/

theorem Chain.catchLabel (h : Chain stmts Γ due Λ₀ due (Λ.setOption label due) due) :
  Chain (stmts ++ catchLabel label) Γ due Λ₀ due Λ due
  := by
  apply h.append
  cases label with
  | none => exact ⟨rfl, rfl⟩
  | some => exact ⟨Λ, due, ⟨suffix_refl due, rfl⟩, ⟨rfl, rfl⟩, rfl, .inr (.inl rfl)⟩

theorem elements_catchLabel (label : Option Nat) :
  (catchLabel label).flatMap Stmt.elements = catchLabel label ∧ Stmt.listCatches (catchLabel label) = label.toList
  := by
  cases label <;> exact ⟨rfl, rfl⟩

theorem atomic_catchLabel (label : Option Nat) :
  ∀ s ∈ catchLabel label, s.elements = [s]
  := by
  cases label <;> simp [catchLabel, Stmt.elements]

theorem sound_iteration (hbody : DisciplinedBlock F body) :
  Sound (iteration body again) (fun r frames => ∀ ⦃Γ Λ due⦄, Fits Γ frames due Λ → Γ.Plain F →
    Γ again = .special ⟨none, due, Λ⟩ → (∀ n ∈ r.2.toList ++ r.1.catches, Λ n = none) ∧
      Ok r.1 Γ (Λ.setOption r.2 due) due due due) old
  := by
  apply ((hbody.into .discard).mono (nil_subset old)).inFrame.bind
  rintro ⟨s, _⟩
  apply Sound.pure
  rintro _ - ⟨hgrows, hnodup, hs⟩ Γ Λ due hfits hplain hagain
  cases hgrows with
  | @loop _ onBreak _ onContinue =>
    have hfresh := hfits.fresh hnodup
    have hsteady := hs (.loop hfresh hfits) hplain (forall_mem_nil _) trivial
    have hflat : (s :: catchLabel onContinue ++ [Stmt.call again]).flatMap Stmt.elements =
        s.elements ++ catchLabel onContinue ++ [.call again] := by
      simp [(elements_catchLabel onContinue).1, Stmt.call, Stmt.elements]
    constructor
    · rw [← Stmt.listCatches_elements, Stmt.elements_ofList, hflat, Stmt.listCatches_append,
        Stmt.listCatches_append, hsteady.catches, (elements_catchLabel onContinue).2]
      · intro n hn
        apply hfresh n
        simpa [JumpFrame.labels, Stmt.listCatches, Stmt.call, Stmt.catches] using hn
      · rw [hflat, forall_mem_append, forall_mem_append, forall_mem_singleton]
        exact ⟨⟨hsteady.atomic, atomic_catchLabel _⟩, rfl⟩
    · have hlabels : Λ ≤ Λ.setOption onBreak due :=
        Labels.le_setOption (fun n hn => hfresh n (mem_append_left _ hn)) due
      have hcall : Steady Γ (Λ.setOption onBreak due) due [Stmt.call again] :=
        Steady.callHelper hagain hlabels values_nil
      have hchain := (Chain.catchLabel hsteady.chain).append hcall.chain
      rw [← hflat] at hchain
      exact ok_ofList hchain

theorem ok_round {test step : Stmt} (hatomic : test.elements = [test]) (hatomic' : step.elements = [step])
    (hcatching : Λ.catching due step = Λ) (htest : Steady (Γ.set [x] .plain) Λ due test.elements)
    (hstep : Ok step (Γ.set [x] .plain) Λ due due due) :
  Ok (.within [x] (.ofList [test, step])) Γ Λ due due due
  := by
  have hflat : [test, step].flatMap Stmt.elements = test.elements ++ [step] := by
    simp [hatomic']
  have htry : Stmt.isTry [x] (.ofList [test, step]) = false := by
    rw [Bool.eq_false_iff]
    intro htry
    obtain ⟨f, _, _, _, _, -, heq, -⟩ := Stmt.isTry_iff.mp htry
    rw [Stmt.ofList, hflat, hatomic] at heq
    simp at heq
  have hlast : Chain [step] (Γ.set [x] .plain) due Λ due Λ due :=
    ⟨Λ, due, hstep, ⟨rfl, rfl⟩, hcatching.symm, .inr (.inl rfl)⟩
  have hchain := htest.chain.append hlast
  rw [← hflat] at hchain
  change Ok (.scope [x] _) Γ Λ due due due
  rw [Ok, if_neg (by simp [htry])]
  exact ⟨suffix_refl due, [], ok_ofList hchain⟩

/-- The procedure of a loop is one round with the catch of its breaks. -/
theorem Steady.createLoop (hagain : Γ again = .special ⟨none, due, Λ⟩) (hatomic : round.elements = [round])
    (hround : Ok round Γ (Λ.setOption onBreak due) due due due)
    (hcatches : ∀ n ∈ onBreak.toList ++ round.catches, Λ n = none) :
  Steady Γ Λ due (Stmt.createProc [] (.ofList (round :: catchLabel onBreak)) again).elements
  := by
  have hflat : (round :: catchLabel onBreak).flatMap Stmt.elements = [round] ++ catchLabel onBreak := by
    rw [flatMap_cons, hatomic, (elements_catchLabel onBreak).1]
  have hchain : Chain [round] Γ due ((Λ.setOption onBreak due).catching due round) due
      (Λ.setOption onBreak due) due := ⟨_, due, hround, ⟨rfl, rfl⟩, rfl, .inr (.inl rfl)⟩
  have hclosed := Chain.catchLabel hchain
  rw [← hflat] at hclosed
  apply Steady.createHelper hagain
  · rw [set_nil]
    exact ok_ofList hclosed
  · intro n hn
    rw [← Stmt.listCatches_elements, Stmt.elements_ofList, hflat, Stmt.listCatches_append,
      (elements_catchLabel onBreak).2, mem_append] at hn
    · apply hcatches n
      rw [mem_append]
      refine hn.symm.imp_right fun hn => ?_
      simpa [Stmt.listCatches] using hn
    · rw [hflat, forall_mem_append, forall_mem_singleton]
      exact ⟨hatomic, atomic_catchLabel onBreak⟩

/-- The names that loops have for their procedures and iterators are not generated. -/
theorem ne_of_loopName (hx : x ∈ ["$guard", "$while", "$iter", "$for"]) :
  (∀ k, x ≠ tempName k) ∧ x ≠ resultIdent ∧ ¬ Written x
  := by
  simp only [mem_cons, not_mem_nil, or_false] at hx
  rcases hx with rfl | rfl | rfl | rfl
  all_goals
    refine ⟨fun k heq => ?_, by decide, by decide⟩
    have := congrArg String.toList heq
    simp [tempName] at this

theorem Named.loopName {frames : List JumpFrame} (h : Named frames) (hx : x ∈ ["$guard", "$while", "$iter", "$for"]) :
  Outside frames x
  := h.outside (ne_of_loopName hx).1 (ne_of_loopName hx).2.1

theorem delivers_whileLoop {cond : Phrase} (hcond : Disciplined F cond) (hbody : DisciplinedBlock F body) :
  Delivers F (whileLoop cond body) .discard
  := by
  apply ((hcond.into (.ident resultIdent)).of_known resultIdent_ne_tempName).inShadow.bind
  rintro ⟨guard, _⟩
  apply Sound.freshTemp.bind
  intro test
  apply (sound_iteration hbody).bind
  rintro ⟨_, _⟩
  apply Sound.pure
  rintro frames hframes hstep htest hcond Γ Λ due hfits hplain - -
  let Γ' := Γ.declare ["$guard", "$while"] ["$guard", "$while"] ⟨none, due, Λ⟩
  have hnames : ["$guard", "$while"] ⊆ ["$guard", "$while", "$iter", "$for"] := by simp
  have hset : Γ' = Γ.set ["$guard", "$while"] (.special ⟨none, due, Λ⟩) := by
    funext x
    by_cases hx : x ∈ ["$guard", "$while"]
    · rw [set_of_mem hx]
      simp only [Γ', Typing.declare, if_pos hx]
    · rw [set_of_not_mem hx]
      exact declare_of_not_mem hx
  have hfits' : Fits Γ' frames due Λ := hset ▸ hfits.set (fun x hx => hframes.loopName (hnames hx)) _
  have hplain' : Γ'.Plain F := hset ▸ hplain.set fun x hx => (ne_of_loopName (hnames hx)).2.2
  have htest' : Γ'.set [test] .plain test = .plain := set_of_mem (mem_singleton_self test)
  have hspecial {x : Ident} (hx : x ∈ ["$guard", "$while"]) :
      Γ'.set [test] .plain x = .special ⟨none, due, Λ⟩ := by
    obtain ⟨k, rfl⟩ := htest.generated
    rw [set_of_not_mem (by simpa using (ne_of_loopName (hnames hx)).1 k), hset, set_of_mem hx]
  obtain ⟨hcatches, hstep⟩ := hstep (hfits'.set (forall_mem_singleton.mpr htest.outside) .plain)
    (hplain'.set (forall_mem_singleton.mpr htest.not_written)) (hspecial (by simp))
  have hvalues : (Γ'.set [test] .plain).Values (Kernel.operandIdents [.ident test]) :=
    values_singleton (isValue_of_plain htest')
  apply Steady.scope ["$guard", "$while"] rfl
  apply Steady.ofList
  apply Steady.flatMap
  rw [forall_mem_cons, forall_mem_cons, forall_mem_singleton]
  refine ⟨?_, ?_, Steady.callHelper rfl (Labels.le_refl Λ) values_nil⟩
  · have hresult : Γ'.set [resultIdent] .plain resultIdent = .plain := set_of_mem (mem_singleton_self _)
    have hsteady := hcond (.shadow (hfits'.set_result hframes))
      (hplain'.set (forall_mem_singleton.mpr not_written_resultIdent)) (forall_mem_nil _)
      (isValue_of_plain hresult)
    apply Steady.createHelper rfl hsteady.ok
    simp [hsteady.catches_eq]
  · apply Steady.createLoop rfl rfl
    · apply ok_round rfl rfl rfl
      · refine Steady.callHelper (hspecial (by simp)) ?_ hvalues
        apply Labels.le_setOption fun n hn => hcatches n (mem_append_left _ hn)
      · exact ⟨hvalues, rfl, hstep, suffix_refl due, rfl⟩
    · simpa [Stmt.within, Stmt.ofList, Stmt.elements, Stmt.catches, Stmt.listCatches] using hcatches

theorem delivers_forLoop {iter : Phrase} (hname : Written name)
    (hiter : Disciplined F iter) (hbody : DisciplinedBlock ([name] ++ F) body) :
  Delivers F (forLoop name iter body) .discard
  := by
  have hiterator (k : Nat) : "$iter" ≠ tempName k := (ne_of_loopName (by simp)).1 k
  apply ((hiter.into (.ident "$iter")).of_known hiterator).bind
  intro _
  apply (sound_iteration hbody).bind
  rintro ⟨_, _⟩
  apply Sound.pure
  rintro frames hframes hstep hfirst Γ Λ due hfits hplain - -
  let Γ' := Γ.declare ["$iter", "$for"] ["$for"] ⟨none, due, Λ⟩
  have hset : Γ' = (Γ.set ["$iter"] .plain).set ["$for"] (.special ⟨none, due, Λ⟩) := by
    funext x
    by_cases hx : x = "$for" <;> by_cases hx' : x = "$iter" <;>
      simp [Γ', Typing.declare, Typing.set, hx]
  have hfits' : Fits Γ' frames due Λ := by
    rw [hset]
    apply Fits.set (hfits.set _ _)
    · exact forall_mem_singleton.mpr (hframes.loopName (by simp))
    · exact forall_mem_singleton.mpr (hframes.loopName (by simp))
  have hplain' : Γ'.Plain F := by
    rw [hset]
    exact Typing.Plain.set (hplain.set (forall_mem_singleton.mpr (by decide))) (forall_mem_singleton.mpr (by decide))
  have hne {x : Ident} (hx : ¬ Written x) : x ∉ [name] := by
    rw [mem_singleton]
    rintro rfl
    exact hx hname
  obtain ⟨hcatches, hstep⟩ := hstep
    (hfits'.set (forall_mem_singleton.mpr (hframes.written hname)) .plain) (hplain'.set_plain [name])
    (set_of_not_mem (hne (by decide)))
  have hvalues : (Γ'.set [name] .plain).Values [name] :=
    values_singleton (isValue_of_plain (set_of_mem (mem_singleton_self name)))
  apply Steady.scope ["$for"] rfl
  apply Steady.ofList
  apply Steady.flatMap
  rw [forall_mem_cons, forall_mem_cons, forall_mem_singleton]
  refine ⟨hfirst hfits' hplain' (forall_mem_nil _) trivial, ?_, Steady.callHelper rfl (Labels.le_refl Λ) values_nil⟩
  apply Steady.createLoop rfl rfl
  · apply ok_round rfl rfl rfl
    · apply Steady.apply _ hvalues
      rw [Operand.idents, forall_mem_singleton]
      exact set_of_not_mem (hne (by decide))
    · exact ⟨values_append hvalues values_nil, rfl, ⟨suffix_refl due, rfl⟩, hstep⟩
  · simpa [Stmt.within, Stmt.ofList, Stmt.elements, Stmt.catches, Stmt.listCatches] using hcatches

/-! ### Attempts -/

theorem sound_catches (target : Target) (hcatches : ∀ alt ∈ catches, DisciplinedAlternative F alt) :
  Sound (alternatives (.ident caught) (.rethrow caught) catches target) (fun s frames =>
    Keeps frames F [caught] target s.elements) (caught :: targetNames target)
  := by
  have halts := sound_alternatives (.ident caught) (.rethrow caught) target (by simp) hcatches
  apply (halts.mono _).imp
  · intro s _ _ hs
    exact hs.weaken (by simp [Operand.idents, fallbackNames])
  · intro x hx
    simpa [Operand.idents, fallbackNames] using hx

theorem Steady.handler {frames : List JumpFrame} {target : Target} (hcaught : Fresh frames old caught)
    (hfits : Fits Γ frames due Λ) (hplain : Γ.Plain F) (husable : Usable Γ target)
    (h : Keeps frames F [caught] target stmts) :
  Steady (Γ.set [caught] .plain) Λ due stmts
  := h.inScope (subset_append_right _ _) (forall_mem_singleton.mpr hcaught.outside) hfits hplain
    (forall_mem_singleton.mpr (set_of_mem (mem_singleton_self caught))) husable

theorem delivers_guarded (target : Target)
    (hbody : DisciplinedBlock F body) (hcatches : ∀ alt ∈ catches, DisciplinedAlternative F alt) :
  Delivers F (guarded body catches none target) target
  := by
  apply (hbody.into target).bind
  intro _
  apply Sound.freshTemp_bind
  intro _
  apply (sound_catches target hcatches).bind
  intro handler
  apply Sound.pure
  intro _ _ hhandler hcaught hattempted _ _ _ hfits hplain hreads husable
  exact Steady.attempt (hattempted hfits hplain hreads husable) (Steady.handler hcaught hfits hplain husable hhandler)

theorem ok_rethrow {v : VarId} (hf : Γ f = .special ⟨some v, due, Λ⟩) (hx : (Γ x).IsValue) :
  Ok (.ofList [.call f, .throw (.ident x)]) Γ Λ due (v :: due) due'
  := by
  have hthrow : Chain [.throw (.ident x)] Γ due Λ due Λ due' :=
    ⟨Λ, due', ⟨values_singleton hx, rfl⟩, ⟨rfl, rfl⟩, rfl, .inr (.inr rfl)⟩
  exact ⟨suffix_cons v due, Λ, Λ, due, ok_call hf, hthrow, rfl, .inr (.inl rfl)⟩

/-- An attempt whose final part is due, in a place where it is not for throws that leave it. -/
theorem sound_guarded (target : Target)
    (hbody : DisciplinedBlock F body) (hcatches : ∀ alt ∈ catches, DisciplinedAlternative F alt) :
  Sound (guarded body catches (some f) target) (fun s frames => ∀ ⦃Γ Λ v d⦄, Fits Γ frames (v :: d) Λ →
    Γ.Plain F → Γ f = .special ⟨some v, d, Λ⟩ → Usable Γ target → ∃ body caught handler,
      s = .attempt body caught handler ∧ caught ≠ f ∧
      Stmt.rethrows f caught handler = true ∧ s.catches = [] ∧ Ok s Γ Λ d (v :: d) (v :: d))
    (f :: targetNames target)
  := by
  have hset {frames : List JumpFrame} {Γ : Typing} {r : Role} {x : Ident} {old : List Ident}
      (hx : Fresh frames (f :: old) x) (hf : Γ f = .special r) :
      Γ.set [x] .plain f = .special r ∧ (Γ.set [x] .plain x).IsValue ∧ x ≠ f := by
    have hne : x ≠ f := fun heq => hx.new (heq ▸ mem_cons_self ..)
    refine ⟨?_, isValue_of_plain (set_of_mem (mem_singleton_self x)), hne⟩
    rw [set_of_not_mem (by simpa using hne.symm), hf]
  apply ((hbody.into target).mono (subset_cons_self f _)).bind
  intro _
  apply Sound.freshTemp_bind
  intro caught
  dsimp only
  split
  · rw [pure_bind]
    apply Sound.pure
    intro _ _ hcaught hattempted _ _ v d hfits hplain hf husable
    replace hattempted := hattempted hfits hplain (forall_mem_nil _) husable
    obtain ⟨hf', hvalue, hne⟩ := hset hcaught hf
    refine ⟨_, _, _, rfl, hne, ?_, ?_, suffix_cons v d, rfl, rfl, hattempted.ok, ok_rethrow hf' hvalue⟩
    · simp [Stmt.ofList, Stmt.call, Stmt.elements, Stmt.rethrows]
    · rw [Stmt.catches, hattempted.catches_eq]
      rfl
  · apply ((sound_catches target hcatches).mono (cons_subset_cons caught (subset_cons_self f _))).bind
    intro handler
    apply (Sound.freshTemp.mono (subset_cons_self caught _)).bind
    intro escaped
    apply Sound.pure
    intro _ _ hescaped hhandler hcaught hattempted _ _ v d hfits hplain hf husable
    replace hattempted := hattempted hfits hplain (forall_mem_nil _) husable
    replace hhandler := Steady.handler hcaught hfits hplain husable hhandler
    obtain ⟨hf', -, hne⟩ := hset hcaught hf
    obtain ⟨hf'', hvalue, hne'⟩ := hset hescaped hf'
    have hcatches : Stmt.catches (.attempt handler escaped (.ofList [.call f, .throw (.ident escaped)])) = [] := by
      rw [Stmt.catches, hhandler.catches_eq]
      rfl
    refine ⟨_, _, _, rfl, hne, ?_, ?_, suffix_cons v d, rfl, hcatches, hattempted.ok,
      suffix_cons v d, rfl, rfl, hhandler.ok, ok_rethrow hf'' hvalue⟩
    · simp [Stmt.ofList, Stmt.call, Stmt.elements, Stmt.rethrows, hne']
    · rw [Stmt.catches, hattempted.catches_eq, hcatches]
      rfl

theorem Steady.attemptFinal {block body handler : Stmt} (hf : ¬ Written f)
    (hcaught : caught ≠ f) (hrethrows : Stmt.rethrows f caught handler = true)
    (hcatches : (Stmt.attempt body caught handler).catches = [])
    (hblock : Steady (Γ.set [f] .absent) Λ due block.elements)
    (hattempt : ∀ v, Ok (.attempt body caught handler) (Γ.set [f] (.special ⟨some v, due, Λ⟩)) Λ
      due (v :: due) (v :: due)) :
  Steady Γ Λ due (Stmt.within [f] (.ofList [.createProc [] block f, .attempt body caught handler, .call f])).elements
  := by
  have htry : Stmt.isTry [f] (.ofList [.createProc [] block f, .attempt body caught handler, .call f]) = true :=
    Stmt.isTry_iff.mpr ⟨f, block, body, caught, handler, rfl, rfl, hf, hcaught, hrethrows⟩
  apply Steady.single rfl
  · rw [Stmt.catches] at hcatches
    simpa [Stmt.within, Stmt.catches, Stmt.ofList, Stmt.elements, Stmt.call, Stmt.listCatches] using hcatches
  change Ok (.scope [f] _) Γ Λ due due due
  rw [Ok, if_pos htry]
  refine ⟨rfl, rfl, fun v => ⟨hblock.ok, ?_, hattempt v⟩⟩
  simp [hblock.catches_eq]

theorem delivers_attempt {final : Option Block} (target : Target) (hbody : DisciplinedBlock F body)
    (hcatches : ∀ alt ∈ catches, DisciplinedAlternative F alt)
    (hfinal : ∀ b ∈ final, DisciplinedBlock F b) :
  Delivers F (attempt body catches final target) target
  := by
  cases final with
  | none => exact delivers_guarded target hbody hcatches
  | some block =>
    refine (Sound.inFinal (R := fun t a s frames => ∃ block,
      s = .within [t] (.ofList [.createProc [] block t, a, .call t]) ∧
        Keeps frames F [] .discard block.elements) (fun f => sound_guarded target hbody hcatches) ?_).imp ?_
    · intro f r
      apply (((hfinal block rfl).into .discard).mono (nil_subset _)).bind
      intro s
      apply Sound.pure
      intro _ _ hs
      exact ⟨s, rfl, hs⟩
    · rintro s _ - ⟨f, _, hf, hstmt, final, rfl, hfinal⟩ _ Λ due hfits hplain _ husable
      replace hfits (k : Kind) := hfits.set (forall_mem_singleton.mpr hf.outside) k
      replace hplain (k : Kind) := hplain.set (k := k) (forall_mem_singleton.mpr hf.not_written)
      replace husable (k : Kind) := husable.set (forall_mem_singleton.mpr hf.new) k
      have hstmt (v : VarId) := hstmt (.final (set_of_mem (mem_singleton_self f)) (hfits _))
        (hplain (.special ⟨some v, due, Λ⟩)) (set_of_mem (mem_singleton_self f)) (husable _)
      obtain ⟨_, _, _, rfl, hcaught, hrethrows, hcatches, -⟩ := hstmt 0
      have hblock := hfinal (hfits .absent) (hplain .absent) (forall_mem_nil _) trivial
      apply Steady.attemptFinal hf.not_written hcaught hrethrows hcatches hblock
      intro v
      obtain ⟨_, _, _, -, -, -, -, hok⟩ := hstmt v
      exact hok

/-! ### Jumps -/

/-- The final parts on the way run and then the jump is made. -/
theorem Steady.leave {frames : List JumpFrame} {depth n : Nat} {frame : JumpFrame} (hfits : Fits Γ frames due Λ)
    (hcross : Crosses frames finals depth frame) (hn : n ∈ frame.labels) :
  Steady Γ Λ due ((finals.map Stmt.call ++ [Stmt.jumpThrow n]).flatMap Stmt.elements)
  := by
  have helements : (finals.map Stmt.call).flatMap Stmt.elements = finals.map Stmt.call := by
    rw [flatMap_map]
    apply flatMap_pure_eq_map
  rw [flatMap_append, helements]
  constructor
  · rw [forall_mem_append, forall_mem_map]
    exact ⟨fun _ _ => rfl, by simp [Stmt.elements]⟩
  · rw [Stmt.listCatches_append]
    clear hcross helements
    induction finals with
    | nil => rfl
    | cons f _ ih => exact ih
  · exact hfits.leave hcross hn (Labels.le_refl Λ) (suffix_refl due)

theorem delivers_leaveLoop :
  Delivers F (leaveLoop isBreak span) .discard
  := by
  intro c _ s hc _ hrun
  obtain ⟨_, _, hget, hrun⟩ := bind_eq_ok_iff.mp hrun
  cases hget
  cases hpoint : loopPoint? c.frames with
  | none =>
    simp only [hpoint] at hrun
    exact absurd hrun fail_ne_ok
  | some =>
    simp only [hpoint] at hrun
    obtain ⟨_, _, hcross⟩ := crosses_of_loopPoint? hpoint
    obtain ⟨label, d, hlabel, hrun⟩ := bind_eq_ok_iff.mp hrun
    obtain ⟨rfl, rfl⟩ := pure_eq_ok_iff.mp hrun
    obtain ⟨onBreak', onContinue', hframe, hmade⟩ := relabels_loopLabel hcross.getElem?_eq hlabel
    have hadvances := hframe.advances hc
    have hmem : label ∈ (JumpFrame.loop onBreak' onContinue').labels := by
      rw [JumpFrame.labels, mem_append]
      cases isBreak with
      | true => exact .inl (by simpa using hmade)
      | false => exact .inr (by simpa using hmade)
    refine ⟨hadvances, ?_⟩
    intro _ hframes _ _ _ hfits _ _ _
    obtain ⟨_, hcross, hgrows⟩ := (hcross.of_advances hadvances hframe.getElem?_eq).grow hframes.grow
    exact (Steady.leave hfits hcross (hgrows.labels_subset hmem)).ofList

theorem return_eq_ok (hd : Advances c d)
    (hcross : Crosses d.frames point.finals point.depth (.func label hasResult standIn))
    (hstmts : ∀ ⦃frames⦄, Completes d frames → Keeps frames F [] .discard (stmts.flatMap Stmt.elements))
    (hrun : (do
      let label ← returnLabel point.depth
      pure (Stmt.ofList (stmts ++ point.finals.map Stmt.call ++ [Stmt.jumpThrow label]))) d = .ok (s, c')) :
  Advances c c' ∧ ∀ ⦃frames⦄, Completes c' frames → Keeps frames F [] .discard s.elements
  := by
  obtain ⟨n, e, hn, hrun⟩ := bind_eq_ok_iff.mp hrun
  obtain ⟨rfl, rfl⟩ := pure_eq_ok_iff.mp hrun
  have hframe := relabels_returnLabel hcross.getElem?_eq hn
  have hadvances := hframe.advances hd.numbered
  refine ⟨hd.trans hadvances, ?_⟩
  intro _ hframes _ _ _ hfits hplain hreads husable
  obtain ⟨frame, hcross, hgrows⟩ := (hcross.of_advances hadvances hframe.getElem?_eq).grow hframes.grow
  have hmem : n ∈ frame.labels := hgrows.labels_subset (by simp [JumpFrame.labels])
  apply Steady.ofList
  rw [append_assoc, flatMap_append]
  apply (hstmts (hframes.of_advances hadvances) hfits hplain hreads husable).append
  exact Steady.leave hfits hcross hmem

theorem returnInto_eq_ok {p : Phrase} (hp : Disciplined F p) (hd : Advances c d) (hresult : Known d result)
    (hcross : Crosses d.frames point.finals point.depth (.func label hasResult standIn))
    (hvalue : ∀ ⦃frames Γ Λ due⦄, Completes d frames → Fits Γ frames due Λ → (Γ result).IsValue)
    (hrun : (do
      let delivered ← p.into (.ident result)
      let label ← returnLabel point.depth
      pure (Stmt.ofList ([delivered] ++ point.finals.map Stmt.call ++ [Stmt.jumpThrow label]))) d = .ok (s, c')) :
  Advances c c' ∧ ∀ ⦃frames⦄, Completes c' frames → Keeps frames F [] .discard s.elements
  := by
  obtain ⟨_, e, hdelivered, hrun⟩ := bind_eq_ok_iff.mp hrun
  obtain ⟨hadvances, hsteady⟩ := hp.into (.ident result) hd.numbered (forall_mem_singleton.mpr hresult) hdelivered
  obtain ⟨_, hcross', hgrows⟩ := hcross.grow hadvances.frames
  cases hgrows with
  | func =>
    apply return_eq_ok (hd.trans hadvances) hcross' _ hrun
    intro _ hframes _ _ _ hfits hplain hreads _
    rw [flatMap_singleton]
    exact hsteady hframes hfits hplain hreads (hvalue (hframes.of_advances hadvances) hfits)

theorem delivers_returnValue {value : Option Phrase} (hvalue : ∀ p ∈ value, Disciplined F p) :
  Delivers F (returnValue value span) .discard
  := by
  intro c _ s hc _ hrun
  obtain ⟨_, _, hget, hrun⟩ := bind_eq_ok_iff.mp hrun
  cases hget
  cases hpoint : returnPoint? c.frames with
  | none =>
    simp only [hpoint] at hrun
    exact absurd hrun fail_ne_ok
  | some point =>
    simp only [hpoint] at hrun
    obtain ⟨_, _, hcross⟩ := crosses_of_returnPoint? hpoint
    cases value with
    | none =>
      exact return_eq_ok hc.advances_self hcross (fun _ _ _ _ _ _ _ _ _ => .nil) hrun
    | some p =>
      have hp := hvalue p rfl
      cases hhas : point.hasResult with
      | false =>
        simp only [hhas] at hrun
        obtain ⟨_, _, hfail, -⟩ := bind_eq_ok_iff.mp hrun
        exact absurd hfail fail_ne_ok
      | true =>
        rw [hhas] at hcross
        simp only [hhas, Bool.not_true, Bool.false_eq_true, if_false] at hrun
        split at hrun
        · obtain ⟨name, d, hname, hrun⟩ := bind_eq_ok_iff.mp hrun
          have halias := relabels_resultAlias hcross.getElem?_eq hname
          have hadvances := halias.advances hc
          have hframe := halias.getElem?_eq
          have hcross' := hcross.of_advances hadvances hframe
          have hmem : name ∈ namesOf d.frames :=
            mem_flatMap.mpr ⟨_, mem_of_getElem? hframe, by simp [JumpFrame.names]⟩
          have hknown : Known d name := by
            obtain ⟨k, _, rfl⟩ := hadvances.numbered.names name hmem
            intro j _ heq
            have := tempName_injective heq
            omega
          apply returnInto_eq_ok hp hadvances hknown hcross' _ hrun
          intro _ _ _ _ hframes hfits
          obtain ⟨_, hcross, hgrows⟩ := hcross'.grow hframes.grow
          cases hgrows with
          | func _ hstandIn =>
            exact (hfits.results hcross).1 name (hstandIn.sublist.subset (by simp))
        · apply returnInto_eq_ok hp hc.advances_self _ hcross _ hrun
          · exact fun k _ => resultIdent_ne_tempName k
          · intro _ _ _ _ hframes hfits
            obtain ⟨_, hcross, hgrows⟩ := hcross.grow hframes.grow
            cases hgrows with
            | func => exact (hfits.results hcross).2 rfl

/-! ### Actors -/

theorem not_isTry_of_actor {ask tell : Ident} {body : Stmt} :
  Stmt.isTry (names ++ [ask, tell]) body = false
  := by
  rw [Bool.eq_false_iff]
  intro htry
  obtain ⟨f, _, _, _, _, hf, -⟩ := Stmt.isTry_iff.mp htry
  have := congrArg List.length hf
  simp at this

theorem delivers_actor {asks tells : List Alternative} (target : Target) (hname : Scoped F [name])
    (hsentences : ∀ p ∈ start.sentences, Disciplined (start.declared ++ (params ++ F)) p)
    (hasks : ∀ alt ∈ asks, DisciplinedAlternative (start.declared ++ (params ++ F)) alt)
    (htells : ∀ alt ∈ tells, DisciplinedAlternative (start.declared ++ (params ++ F)) alt) :
  Delivers F (actor name params start asks tells target) target
  := by
  apply Sound.freshTemp.bind
  intro ask
  apply Sound.freshTemp.bind
  intro tell
  apply ((sound_inOrder .discard hsentences).mono (nil_subset _)).inFrame.bind
  rintro ⟨_, _⟩
  apply (sound_handler .ask [messageIdent, resultIdent] (by simp) (by simp) hasks).bind
  intro _
  apply (sound_handler .tell [messageIdent] (by simp) (by simp) htells).bind
  intro _
  apply Sound.pure
  rintro _ - htellBody haskBody ⟨hgrows, -, hinit⟩ - - Γ _ _ - hplain _ husable
  cases hgrows
  have hvalue := hname.plain hplain name (mem_singleton_self name)
  apply Steady.named hvalue _ husable
  apply Steady.single rfl rfl
  refine ⟨rfl, rfl, isValue_of_plain hvalue, fun d => Steady.ok ?_⟩
  have hplain' : ((Γ.sealed (params ++ [resultIdent])).set (start.declared ++ [ask, tell]) .plain).Plain
      (start.declared ++ (params ++ F)) := by
    apply ((hplain.sealed _).set_plain _).mono
    intro x hx
    simp only [mem_append] at hx ⊢
    tauto
  have hnames : ∀ x ∈ [ask, tell, resultIdent],
      (Γ.sealed (params ++ [resultIdent])).set (start.declared ++ [ask, tell]) .plain x = .plain := by
    simp only [forall_mem_cons]
    refine ⟨set_of_mem (by simp), set_of_mem (by simp), plain_set (sealed_of_mem (by simp)), by simp⟩
  apply Steady.within not_isTry_of_actor
  apply Steady.ofList
  apply Steady.flatMap
  simp only [forall_mem_cons]
  refine ⟨?_, ?_, ?_, ?_, by simp⟩
  · exact (hinit (.barrier _ d) hplain' (forall_mem_nil _) trivial).ofList
  · exact Steady.createProc (isValue_of_plain (hnames ask (by simp))) (haskBody hplain')
  · exact Steady.createProc (isValue_of_plain (hnames tell (by simp))) (htellBody hplain')
  · exact Steady.simple rfl (values_of_plain hnames)

end Control

end ActorLang
