import ActorLang.Proofs.Machine.Agreement
import ActorLang.Proofs.Store.Records

/-!
# Applications that agree

Applying a value is applying a builtin, which may change what machines share, or going on with the
body of a closure.  A message to an actor is a snapshot, and so mentions nothing that is hidden.
-/

namespace ActorLang

open Kernel (Operand)
open List

variable {result v : VarId} {w w' : World} {P : Leaf → Prop} {args results : List VarId}
  {proc cfg d : Datum} {args' : List Operand} {actor me : ActorId} {e : Envelope}
  {method f : Feature} {C : Definition → Prop} {M : Mode} {V : View} {g : Stage}

namespace Exec

section Builtins

theorem agree_recordArg (hv : V.vars v) :
  Agree .looks M V C (recordArg v) (recordArg v) (Still V fun r => ∀ f ∈ r.fields, f.2.Fits M V)
  := by
  apply (agree_determined (.var hv)).next
  intro d _
  cases d with
  | record id => exact agree_withStore _ fun s hs hfits => fits_fields hs hfits id
  | scalar => exact agree_fault rfl

theorem world_bind (target : VarId) (v : Value) (τ : Session) :
  ((bind target v).run τ).2.world = τ.world
  := by
  rw [bind, (returns_onStore (·.unify (.var target) v) τ).run_bind]
  cases (τ.store.unify (.var target) v).1 <;> rfl

theorem agree_addIterator (it : RangeIterator) (hcounts : M.counts) :
  Agree .acts M V C (onWorld fun w => (w.iterators.size, { w with iterators := w.iterators.push it }))
    (onWorld fun w => (w.iterators.size, { w with iterators := w.iterators.push it }))
    (Still V M.iterators)
  := by
  refine agree_onWorld _ (fun _ => allows_world rfl) (fun w hw => hw) (fun w => ?_) (fun w w' hw => ?_)
    fun w hw => hw hcounts _ (Nat.le_refl _)
  · refine { World.Spares.refl M w with size := by simp, iterators := fun i hi _ => ?_ }
    rw [Array.getElem?_push_lt hi, Array.getElem?_eq_getElem hi]
  · refine ⟨hw.size hcounts, { hw with size := fun _ => ?_, iterators := fun i hi => ?_ }⟩
    · rw [Array.size_push, Array.size_push, hw.size hcounts]
    · rw [Array.getElem?_push, Array.getElem?_push, hw.size hcounts, hw.iterators i hi]

theorem agree_newRange {start stop : VarId} (hstart : V.vars start) (hstop : V.vars stop) (hresult : V.vars result) :
  Agree .looksThenActs M V C (newRange start stop result) (newRange start stop result) (Equal V)
  := by
  apply (agree_determined (.var hstart)).next
  intro _ _
  apply (agree_determined (.var hstop)).next
  intro _ _
  split
  · refine fun σ hσ => agree_making (fun w => ?_) (fun _ => world_bind _ _) fun hcounts => ?_
    · simp only [World.made, Array.size_push]
      omega
    refine Agree.ofActs ((agree_addIterator _ hcounts).next fun _ hindex => ?_) σ hσ
    exact agree_bind hresult (.scalar trivial hindex)
  · exact agree_fault rfl
  · exact agree_fault rfl

theorem tame_newMailbox (hw : w.Tame C) :
  w.newMailbox.2.Tame C
  := by
  intro box hbox
  rcases Array.mem_push.mp hbox with hbox | rfl
  · exact hw box hbox
  · simp

theorem agree_newMailbox (hactors : M.actors) (hcounts : M.counts) :
  Agree .anything M V C (onWorld (·.newMailbox)) (onWorld (·.newMailbox)) (Equal V)
  := by
  refine agree_onWorld _ (fun _ => trivial) (fun w => tame_newMailbox) (fun w => ?_) (fun w w' hw => ?_) fun _ _ => trivial
  · refine { World.Spares.refl M w with mailboxes := by simp [World.newMailbox], isOpen := fun id hid => ?_ }
    simp only [World.isOpen, World.newMailbox, Array.getElem?_push_lt hid, Array.getElem?_eq_getElem hid]
  · have hboxes := hw.mailboxes hcounts hactors
    refine ⟨congrArg Array.size hboxes, { hw with mailboxes := fun _ _ => ?_, isOpen := (absurd hcounts ·) }⟩
    exact congrArg (Array.push · {}) hboxes

/-- Without an actor that it could belong to, another one is not started. -/
theorem agree_spawn (hcfg : cfg.In V) :
  Agree .looksThenActs M V C (spawn cfg) (spawn cfg) (Still V fun id => (Scalar.actor id).Fits M)
  := by
  intro σ hσ
  cases hself : σ.self with
  | none =>
    intro b hb
    have hrun {τ : Session} (h : τ.self = none) :
        (spawn cfg).run τ = (.error (.fault .spawnOutsideActor), τ) := by
      rw [spawn, (returns_get τ).run_bind, h]
      rfl
    refine .inr ⟨_, σ, V, hrun hself, allows_still nofun, hσ, .refl M V σ, ?_⟩
    by_cases hactors : M.actors
    · exact .alike (hrun ((hb.self hactors).trans hself)) hb.world (.error rfl nofun)
    · exact .starts hactors rfl
  | some me =>
    have hactors : M.actors := hσ.alone.resolve_right fun h => by simp [h.self] at hself
    have hnew (hcounts : M.counts) (p : Portable) (hp : p.Tame C) :
        Agree .anything M V C (do
          let actor ← onWorld (·.newMailbox)
          onMachine fun m => (actor, { m with spawns := m.spawns ++ [⟨actor, p⟩] })) (do
          let actor ← onWorld (·.newMailbox)
          onMachine fun m => (actor, { m with spawns := m.spawns ++ [⟨actor, p⟩] }))
          (Still V fun id => (Scalar.actor id).Fits M) := by
      apply (agree_newMailbox hactors hcounts).next
      intro _ _
      refine (agree_onMachine _ hactors (fun _ _ _ _ => rfl) (fun _ => ⟨rfl, rfl, rfl, rfl⟩) fun m hm => ?_).mono
        fun _ _ _ _ h => ⟨h.1, h.2.1, hactors, .inl hcounts⟩
      refine { hm with spawns := ?_ }
      rw [forall_mem_append, forall_mem_singleton]
      exact ⟨hm.spawns, hp⟩
    have hrun {τ : Session} (h : τ.self = some me) :
        (spawn cfg).run τ = (do
          let p ← snapshot (.datum cfg)
          let actor ← onWorld (·.newMailbox)
          onMachine fun m => (actor, { m with spawns := m.spawns ++ [⟨actor, p⟩] }) : Exec ActorId).run τ := by
      rw [spawn, (returns_get τ).run_bind, h]
      rfl
    refine AgreeFrom.congr ?_ (hrun hself) fun b hb => hrun ((hb.self hactors).trans hself)
    refine (agree_snapshot (v := .datum cfg) hcfg σ hσ).bind ?_
    rintro _ σ' hσ' - p _ - - ⟨rfl, rfl, hp⟩
    refine agree_making (fun w => by simp [World.made, World.newMailbox]) (fun _ _ => rfl) fun hcounts => ?_
    refine (hnew hcounts p hp σ' hσ').stage rfl ?_
    rintro _ _ ⟨⟩ -
    exact ⟨nofun, .spawn⟩

theorem agree_applyBuiltin {b : Builtin} (hargs : ∀ v ∈ args, V.vars v) :
  Agree .looksThenActs M V C (applyBuiltin b args) (applyBuiltin b args) (Equal V)
  := by
  fun_cases applyBuiltin b args with
  | case1 content =>
    obtain ⟨hcontent, hresult, -⟩ : _ ∧ _ ∧ True := by simpa using hargs
    have hfits : (Store.Operation.newCell (.var content)).Fits M V :=
      ⟨nofun, fun _ s hs => hs content hcontent⟩
    apply Agree.ofActs
    apply (agree_change _ (fun _ => rfl) hfits fun s hs => hs.newCell (.var content) hcontent).next
    intro _ _
    exact agree_bind hresult (.scalar trivial trivial)
  | case2 _ _ =>
    obtain ⟨hother, hrecord, hresult, -⟩ : _ ∧ _ ∧ _ ∧ True := by simpa using hargs
    apply (agree_recordArg hother).next
    intro _ hother
    apply (agree_recordArg hrecord).next
    intro _ hrecord
    exact (agree_bindRecord hresult (Record.forall_assign hrecord hother)).ofActs
  | case3 _ =>
    obtain ⟨hrecord, hresult, -⟩ : _ ∧ _ ∧ True := by simpa using hargs
    apply (agree_recordArg hrecord).next
    intro _ _
    split
    · exact agree_fault_bind rfl
    · exact (agree_bind hresult (.lit _)).ofActs
  | case4 =>
    obtain ⟨hresult, -⟩ : _ ∧ True := by simpa using hargs
    refine fun σ hσ => agree_making (fun w => ?_) (fun _ => world_bind _ _) fun hcounts => ?_
    · simp only [World.made]
      omega
    refine Agree.ofActs ((agree_onWorld _ (P := fun _ => True) (fun _ => allows_world rfl) (fun w hw => hw)
      (fun w => { World.Spares.refl M w with nextToken := by simp })
      (fun w w' hw => ⟨hw.nextToken hcounts, { hw with nextToken := fun h => congrArg (· + 1) (hw.nextToken h) }⟩)
      fun _ _ => trivial).next fun _ _ => ?_) σ hσ
    exact agree_bind hresult (.scalar trivial trivial)
  | case5 =>
    obtain ⟨hstart, hstop, hresult, -⟩ : _ ∧ _ ∧ _ ∧ True := by simpa using hargs
    exact agree_newRange hstart hstop hresult
  | case6 =>
    obtain ⟨hcfg, hresult, -⟩ : _ ∧ _ ∧ True := by simpa using hargs
    apply (agree_determined (.var hcfg)).next
    intro d hd
    split
    · apply (agree_spawn hd.inView).last fun _ => world_bind _ _
      rintro _ - _ _ ⟨rfl, rfl, hactor⟩
      exact agree_bind hresult (.scalar trivial hactor)
    · exact agree_fault rfl
  | case7 =>
    apply (agree_read _).next
    intro _ _
    split
    · exact agree_fault rfl
    · exact agree_pure ⟨rfl, rfl, trivial⟩
  | case8 => exact agree_fault rfl

theorem agree_advance {index : Nat} (hindex : M.iterators index) (hresult : V.vars result) :
  Agree .acts M V C (advance index result) (advance index result) (Equal V)
  := by
  refine (agree_onWorld _ (P := fun _ => True) (fun σ => allows_world ?_) (fun w hw => ?_) (fun w => ?_)
    (fun w w' hw => ?_) fun _ _ => trivial).next ?_
  · split <;> rfl
  · split
    · exact hw
    · exact hw
  · split
    · refine { World.Spares.refl M w with size := by simp, iterators := fun i hi hnot => ?_ }
      rw [Array.getElem?_setIfInBounds_ne]
      rintro rfl
      exact hnot hindex
    · exact .refl M w
  · have hsame := hw.iterators index hindex
    rw [hsame]
    cases hit : w.iterators[index]? with
    | none => exact ⟨rfl, hw⟩
    | some =>
      obtain ⟨hlt, -⟩ := Array.getElem?_eq_some_iff.mp hit
      obtain ⟨hlt', -⟩ := Array.getElem?_eq_some_iff.mp (hsame.trans hit)
      refine ⟨rfl, { hw with size := fun h => by simpa using hw.size h, iterators := fun i hi => ?_ }⟩
      simp only [Array.getElem?_setIfInBounds, if_pos hlt, if_pos hlt', hw.iterators i hi]
  · intro value _
    exact agree_bind hresult (.lit value)

end Builtins

section Apply

variable {env env' : Env}

/-- What comes next when a value has been applied: nothing, or the body of a closure. -/
inductive Applied (V : View) (C : Definition → Prop) : Next → Prop where
  | rest : Applied V C .rest
  | enter {c : Closure} {args : List VarId} (hc : c.Tame V C) (hargs : ∀ v ∈ args, V.vars v)
      (hlength : c.params.length = args.length) :
      Applied V C (.enter c.body (Env.extend [] (c.env ++ c.params.zip args)))

theorem agree_apply (hproc : proc.Fits M V) (hargs : ∀ v ∈ args, V.vars v) :
  Agree .looksThenActs M V C (apply proc args) (apply proc args) (Still V (Applied V C))
  := by
  intro σ hσ
  fun_cases apply proc args with
  | case1 p =>
    -- the closure is the one whose parameters have been counted
    apply agreeFrom_withStore
    cases p with
    | closure =>
      refine agree_unless rfl hσ fun hlength => ?_
      apply agreeFrom_withStore
      refine agree_pure ⟨rfl, rfl, .enter (hσ.tame.machine.store.closure hproc.1) hargs ?_⟩ σ hσ
      exact Decidable.not_not.mp hlength
    | builtin =>
      refine agree_unless rfl hσ fun _ => ?_
      refine (agree_applyBuiltin hargs).last (fun _ _ => rfl) ?_ σ hσ
      rintro _ - _ _ ⟨rfl, -⟩
      exact agree_pure ⟨rfl, rfl, .rest⟩
    | iterator =>
      refine agree_unless rfl hσ fun _ => ?_
      dsimp only
      split
      next result _ =>
        refine Agree.ofActs ((agree_advance hproc.2 (hargs result (mem_singleton_self _))).next ?_) σ hσ
        intro _ _
        exact agree_pure ⟨rfl, rfl, .rest⟩
      next => exact agree_fault rfl σ hσ
  | case2 =>
    exact agree_fault rfl σ hσ

theorem SameOperand.result_iff {a b : Operand} (h : SameOperand V env env' a b) :
  a = .ident Kernel.programResult ↔ b = .ident Kernel.programResult
  := by
  cases h with
  | lit => simp
  | ident h => simpa using h.2

theorem getLast?_result_iff {args : List Operand} (h : Forall₂ (SameOperand V env env') args args') :
  args.getLast? = some (.ident Kernel.programResult) ↔ args'.getLast? = some (.ident Kernel.programResult)
  := by
  rw [List.getLast?_eq_head?_reverse, List.getLast?_eq_head?_reverse]
  have hreverse := forall₂_reverse_iff.mpr h
  generalize args.reverse = l at hreverse
  generalize args'.reverse = l' at hreverse
  cases hreverse with
  | nil => exact Iff.rfl
  | cons harg => simpa using harg.result_iff

theorem withoutResult_same {args : List Operand} (h : Forall₂ (SameOperand V env env') args args') (takes : Nat) :
  Forall₂ (SameOperand V env env') (withoutResult args takes) (withoutResult args' takes)
  := by
  simp only [withoutResult, getLast?_result_iff h, h.length_eq]
  split
  · rw [dropLast_eq_take, dropLast_eq_take, h.length_eq]
    exact forall₂_take _ h
  · exact h

theorem agree_applyOperands {args : List Operand} (hproc : proc.Fits M V)
    (h : Forall₂ (SameOperand V env env') args args') :
  Agree .looksThenActs M V C (applyOperands env proc args) (applyOperands env' proc args')
    (Same fun W next => Applied W C next)
  := by
  have happly {args args' : List Operand} (h : Forall₂ (SameOperand V env env') args args') :
      Agree .looksThenActs M V C (do apply proc (← operandVars env args)) (do apply proc (← operandVars env' args'))
        (Same fun W next => Applied W C next) := by
    apply (agree_operandVars h).bind
    rintro W hW _ _ ⟨rfl, hvars⟩
    apply (agree_apply (hproc.mono hW) hvars).mono
    rintro _ - _ _ ⟨rfl, rfl, hnext⟩
    exact ⟨rfl, hnext⟩
  unfold applyOperands
  split
  next p =>
    apply (agree_read _).next
    intro takes _
    exact happly (withoutResult_same h takes)
  next => exact happly h

theorem agree_configure {cfgtr : ProcId} (hcfgtr : V.procs cfgtr) (hargs : ∀ v ∈ args, V.vars v) :
  Agree .acts M V C (configure cfgtr args) (configure cfgtr args) Anyhow
  := by
  apply (agree_read _).next
  intro c _
  dsimp only
  split
  · have htaken (v : VarId) (hv : v ∈ args.take (c.params.length - 1)) : V.vars v :=
      hargs v (mem_of_mem_take hv)
    apply (agree_onStore (.newCfg ⟨cfgtr, _⟩) (fun _ => rfl) ⟨trivial, fun _ s hs v hv => hs v (htaken v hv)⟩
      (fun _ => allows_acts _ _) fun s hs => hs.newCfg hcfgtr htaken).bind
    rintro W hW id _ ⟨rfl, hid⟩
    split
    next result hresult =>
      have hresult := hW.vars result (hargs result (mem_of_getElem? hresult))
      exact (agree_bind hresult (.scalar (a := .actorCfg id) hid trivial)).anyhow
    next => exact agree_pure ⟨rfl, trivial⟩
  · split
    · exact agree_fault rfl
    · exact agree_pure ⟨rfl, trivial⟩

theorem agree_selectPath (hd : d.Fits M V) (path : List Feature) :
  Agree .looks M V C (selectPath d path) (selectPath d path) (Still V (Datum.Fits M V))
  := by
  induction path generalizing d with
  | nil => exact agree_pure ⟨rfl, rfl, hd⟩
  | cons f _ ih =>
    apply agree_select.next
    intro _ hfield
    apply (agree_determined hfield).next
    intro d hd
    exact ih hd

theorem tame_send? (hw : w.Tame C) (he : e.message.Tame C) (h : w.send? actor e = some w') :
  w'.Tame C
  := by
  obtain ⟨queue, hbox, rfl⟩ := World.sent_of_send? h
  intro box' hbox'
  rcases Array.mem_or_eq_of_mem_setIfInBounds hbox' with hbox' | rfl
  · exact hw box' hbox'
  · rw [forall_mem_append, forall_mem_singleton]
    exact ⟨hw _ (Array.mem_of_getElem? hbox), he⟩

theorem isOpen_send? (h : w.send? actor e = some w') (id : ActorId) :
  w'.isOpen id = w.isOpen id
  := by
  obtain ⟨queue, hbox, rfl⟩ := World.sent_of_send? h
  simp only [World.isOpen, Array.getElem?_setIfInBounds]
  split
  next heq =>
    obtain ⟨hlt, -⟩ := Array.getElem?_eq_some_iff.mp hbox
    rw [if_pos hlt, ← heq, hbox]
    rfl
  next => rfl

theorem isSome_send? :
  (w.send? actor e).isSome = w.isOpen actor
  := by
  rw [World.send?, World.isOpen]
  rcases w.mailboxes[actor]? with _ | ⟨_ | _, _⟩ <;> rfl

/-- Sending depends on whether the mailbox is open, and on no queue. -/
theorem like_send? (hw : w.Like M w') (hactor : (Scalar.actor actor).Fits M) :
  (w.send? actor e = none ∧ w'.send? actor e = none) ∨ ∃ u u', w.send? actor e = some u ∧ w'.send? actor e = some u' ∧ u.Like M u'
  := by
  have hopen : w'.isOpen actor = w.isOpen actor := by
    by_cases hcounts : M.counts
    · rw [World.isOpen, hw.mailboxes hcounts hactor.1, World.isOpen]
    · exact hw.isOpen hcounts actor (hactor.2.resolve_left hcounts)
  rw [← isSome_send? (e := e), ← isSome_send? (e := e)] at hopen
  cases hu : w.send? actor e with
  | none => exact .inl ⟨rfl, by simpa [hu] using hopen⟩
  | some u =>
    rw [hu] at hopen
    obtain ⟨u', hu'⟩ := Option.isSome_iff_exists.mp hopen
    refine .inr ⟨u, u', rfl, hu', ?_⟩
    obtain ⟨queue, hbox, heq⟩ := World.sent_of_send? hu
    obtain ⟨queue', hbox', heq'⟩ := World.sent_of_send? hu'
    have hopens : ¬ M.counts → ∀ id, M.knows id → u'.isOpen id = u.isOpen id := fun h id hid => by
      rw [isOpen_send? hu, isOpen_send? hu', hw.isOpen h id hid]
    subst heq heq'
    refine { hw with mailboxes := fun hcounts hactors => ?_, isOpen := hopens }
    have hboxes := hw.mailboxes hcounts hactors
    rw [hboxes, hbox] at hbox'
    cases hbox'
    exact congrArg (Array.setIfInBounds · actor ⟨true, queue ++ [e]⟩) hboxes

theorem agree_asks :
  Agree .looks M V C (asks method) (asks method) (Equal V)
  := by
  unfold asks
  split
  · exact agree_pure ⟨rfl, rfl, trivial⟩
  · exact agree_pure ⟨rfl, rfl, trivial⟩
  · exact agree_fault rfl

theorem agree_newVar :
  Agree g M V C (onStore (·.newVar)) (onStore (·.newVar)) (Same View.vars)
  := agree_onStore .newVar (fun _ => rfl) ⟨trivial, fun _ _ _ => trivial⟩
    (fun _ => Stage.allows_of_addsVars ⟨.newSlot _ _, rfl⟩ (fun _ h => by cases h) g) fun _ hs => hs.newVar

theorem agree_newRequest (hactors : M.actors) (hresults : ∀ v ∈ results, V.vars v) :
  Agree .anything M V C (newRequest results) (newRequest results) Anyhow
  := by
  have hnew {W : View} {result : VarId} (hresult : W.vars result) :
      Agree .anything M W C (onMachine fun m => (m.nextRequest, { m with
          nextRequest := m.nextRequest + 1
          pending := (m.nextRequest, result) :: m.pending }))
        (onMachine fun m => (m.nextRequest, { m with
          nextRequest := m.nextRequest + 1
          pending := (m.nextRequest, result) :: m.pending })) (Equal W) := by
    apply agree_onMachine _ hactors (fun _ _ _ _ => rfl) (fun _ => ⟨rfl, rfl, rfl, rfl⟩)
    intro m hm
    exact { hm with pending := forall_mem_cons.mpr ⟨hresult, hm.pending⟩ }
  unfold newRequest
  split
  · exact (hnew (hresults _ (mem_cons_self ..))).anyhow
  · apply agree_newVar.bind
    rintro W - _ _ ⟨rfl, hresult⟩
    exact (hnew hresult).anyhow

theorem agree_deliver (hactor : (Scalar.actor actor).Fits M) (he : e.message.Tame C) :
  Agree .anything M V C (deliver actor e) (deliver actor e) (Equal V)
  := by
  refine (agree_onWorld (g := .anything) _ (P := fun _ => True) (fun _ => trivial) (fun w hw => ?_) (fun w => ?_)
    (fun w w' hw => ?_) fun _ _ => trivial).next ?_
  · split
    next w' hsend => exact tame_send? hw he hsend
    next => exact hw
  · split
    next w' hsend =>
      obtain ⟨queue, -, heq⟩ := World.sent_of_send? hsend
      subst heq
      exact { World.Spares.refl M w with mailboxes := by simp, isOpen := fun id _ => isOpen_send? hsend id }
    next => exact .refl M w
  · rcases like_send? (e := e) hw hactor with ⟨hu, hu'⟩ | ⟨u, u', hu, hu', hlike⟩
    · rw [hu, hu']
      exact ⟨rfl, hw⟩
    · rw [hu, hu']
      exact ⟨rfl, hlike⟩
  · intro _ _
    split
    · exact agree_fault rfl
    · exact agree_pure ⟨rfl, rfl, trivial⟩

theorem agree_request {p : Portable} (hactor : (Scalar.actor actor).Fits M) (hp : p.Tame C) (hresults : ∀ v ∈ results, V.vars v) :
  Agree .anything M V C (do
    let id ← newRequest results
    deliver actor (.request p id me)) (do
    let id ← newRequest results
    deliver actor (.request p id me)) Anyhow
  := by
  apply (agree_newRequest hactor.1 hresults).bind
  rintro W - id _ ⟨rfl, -⟩
  exact (agree_deliver (e := .request p id me) hactor hp).anyhow

theorem agreeFrom_sendFrom {σ : Session} (hσ : σ.Orderly M V C) (hactor : (Scalar.actor actor).Fits M)
    (hself : σ.self = some me) (hargs : ∀ v ∈ args, V.vars v) :
  AgreeFrom .looksThenActs M V C σ (sendFrom me actor method args) (sendFrom me actor method args) Anyhow
  := by
  refine (agree_asks σ hσ).bind ?_
  rintro _ σ₁ hσ₁ hgrown₁ _ _ - - ⟨rfl, rfl, -⟩
  cases args with
  | nil => exact agree_fault rfl σ₁ hσ₁
  | cons _ rest =>
    obtain ⟨hmessage, hrest⟩ := forall_mem_cons.mp hargs
    refine agree_unless rfl hσ₁ fun _ => ?_
    refine (agree_determined (.var hmessage) σ₁ hσ₁).bind ?_
    rintro _ σ₂ hσ₂ hgrown₂ d _ - - ⟨rfl, rfl, hd⟩
    refine (agree_snapshot (v := .datum d) hd.inView σ₂ hσ₂).bind ?_
    rintro _ σ₃ hσ₃ hgrown₃ p _ hreturns - ⟨rfl, rfl, hp⟩
    have hsnapshot := isSnapshot_of_returns hreturns
    have hself₃ : σ₃.self = some me := by
      rw [hgrown₃.self, hgrown₂.self, hgrown₁.self, hself]
    split
    · refine (agree_request hactor hp hrest σ₃ hσ₃).stage rfl fun r τ hrun _ => ?_
      rw [← hrun]
      exact Stage.allows_request rest hsnapshot hself₃
    · refine ((agree_deliver (e := .notify p) hactor hp).anyhow σ₃ hσ₃).stage rfl fun r τ hrun _ => ?_
      rw [← hrun]
      exact Stage.allows_notify hsnapshot

theorem agree_send (hactor : (Scalar.actor actor).Fits M) (hargs : ∀ v ∈ args, V.vars v) :
  Agree .looksThenActs M V C (send actor method args) (send actor method args) Anyhow
  := by
  intro σ hσ
  cases hself : σ.self with
  | none =>
    have hrun {τ : Session} (h : τ.self = none) :
        (send actor method args).run τ = (fault .sendOutsideActor : Exec Unit).run τ := by
      rw [send, (returns_get τ).run_bind, h]
    refine AgreeFrom.congr ?_ (hrun hself) fun b hb => hrun ((hb.self hactor.1).trans hself)
    exact agree_tameFault (f := .sendOutsideActor) trivial (fun _ => hactor.1) σ hσ
  | some me =>
    have hrun {τ : Session} (h : τ.self = some me) :
        (send actor method args).run τ = (sendFrom me actor method args).run τ := by
      rw [send, (returns_get τ).run_bind, h]
    refine AgreeFrom.congr ?_ (hrun hself) fun b hb => hrun ((hb.self hactor.1).trans hself)
    exact agreeFrom_sendFrom hσ hactor hself hargs

theorem agree_selectApply {record record' : Operand} {path path' args : List Operand}
    (hrecord : SameOperand V env env' record record')
    (hpath : Forall₂ (SameOperand V env env') path path')
    (hargs : Forall₂ (SameOperand V env env') args args') :
  Agree .looksThenActs M V C (selectApply env record path args) (selectApply env' record' path' args')
    (Same fun W next => Applied W C next)
  := by
  apply (agree_determinedOperand hrecord).next
  intro _ hstart
  apply (agree_features hpath).next
  intro path _
  split
  next => exact agree_fault rfl
  next method hmethod =>
    apply (agree_selectPath hstart path.dropLast).next
    intro d hd
    split
    next id =>
      apply agree_select.next
      intro _ hfield
      apply (agree_determined hfield).next
      intro _ hproc
      exact agree_applyOperands hproc hargs
    next actor =>
      apply (agree_operandVars (withoutResult_same hargs _)).bind
      rintro W - _ _ ⟨rfl, hvars⟩
      apply (agree_send hd.2 hvars).last fun _ _ => rfl
      rintro _ - _ _ -
      exact agree_pure ⟨rfl, .rest⟩
    next cfgtr =>
      intro σ hσ
      refine agree_unless rfl hσ fun _ => ?_
      refine (agree_operandVars hargs).bind ?_ σ hσ
      rintro W hW _ _ ⟨rfl, hvars⟩
      apply Agree.ofActs
      apply (agree_configure (hW.procs cfgtr hd.1) hvars).bind
      rintro _ - _ _ -
      exact agree_pure ⟨rfl, .rest⟩
    next => exact agree_fault rfl

end Apply

end Exec

end ActorLang
