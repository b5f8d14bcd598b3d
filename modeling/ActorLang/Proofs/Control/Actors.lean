import ActorLang.Actor.System
import ActorLang.Proofs.Actor.Deeds
import ActorLang.Proofs.Control.Hosts

/-!
# Actors that keep the discipline

The ledger of an actor goes on through its turns.  `Held` is the invariant of an actor: its machine
keeps the discipline while it runs, and is calm otherwise; its handlers and the results of its tasks
are values that the program can see.
-/

namespace ActorLang

open Kernel (Ident Stmt)
open List

/-! ### Mailboxes -/

section World

variable {C : Definition → Prop} {w w' : World} {e : Envelope}

theorem Portable.tame_error (hC : C (Closure.definition {})) (name message : String) :
  (Portable.error name message).Tame C
  := ((Store.Tame.empty hC .full).newRecord (Record.in_error name message)).1

theorem World.Tame.post (hw : w.Tame C) (actor : ActorId) (he : e.message.Tame C) :
  (Actor.post w actor e).Tame C
  := by
  rw [Actor.post]
  cases hsend : w.send? actor e with
  | none => exact hw
  | some => exact Exec.tame_send? hw he hsend

theorem World.Tame.receive (hw : w.Tame C) {actor : ActorId} (h : w.receive? actor = some (e, w')) :
  e.message.Tame C ∧ w'.Tame C
  := by
  rw [World.receive?] at h
  split at h
  case h_2 => cases h
  case h_1 box hbox =>
    have hbox := hw box (Array.mem_of_getElem? hbox)
    split at h
    case h_1 => cases h
    case h_2 first rest hqueue =>
      cases h
      rw [hqueue] at hbox
      obtain ⟨hfirst, hrest⟩ := forall_mem_cons.mp hbox
      refine ⟨hfirst, fun box' hbox' => ?_⟩
      rcases Array.mem_or_eq_of_mem_setIfInBounds hbox' with hbox' | rfl
      · exact hw box' hbox'
      · exact hrest

theorem World.Tame.close (hw : w.Tame C) (actor : ActorId) :
  (∀ e ∈ (w.close actor).1, e.message.Tame C) ∧ (w.close actor).2.Tame C
  := by
  rw [World.close]
  split
  case h_2 => exact ⟨forall_mem_nil _, hw⟩
  case h_1 box hbox =>
    refine ⟨hw box (Array.mem_of_getElem? hbox), fun box' hbox' => ?_⟩
    rcases Array.mem_or_eq_of_mem_setIfInBounds hbox' with hbox' | rfl
    · exact hw box' hbox'
    · exact forall_mem_nil _

theorem World.Tame.refuse (hC : C (Closure.definition {})) (hw : w.Tame C) (id : ActorId) (queue : List Envelope) :
  (Actor.refuse id w queue).Tame C
  := by
  induction queue generalizing w with
  | nil => exact hw
  | cons e _ ih =>
    rw [Actor.refuse]
    split
    · exact ih (hw.post _ (Portable.tame_error hC _ _))
    · exact ih hw

end World

/-! ### The invariant -/

/-- The ledger of an actor after its next step.  What is dropped with a turn is not left. -/
def Actor.log (a : Actor) (w : World) (L : Ledger) : Ledger :=
  let L := match a.phase with
    | .running _ => Session.log ⟨a.machine, w⟩ L
    | _ => L
  L.cut (a.step w).1.stack.length

def Task.In (V : View) : Task → Prop
  | .configure result | .ask _ _ result => V.vars result
  | .program | .tell => True

theorem Task.In.mono {V W : View} {t : Task} (h : t.In V) (hV : V ≤ W) :
  t.In W
  := by
  cases t with
  | configure | ask => exact hV.vars _ h
  | program | tell => trivial

structure Handlers.In (V : View) (h : Handlers) : Prop where
  ask : h.ask.In V
  tell : h.tell.In V

theorem Handlers.In.mono {V W : View} {h : Handlers} (hh : h.In V) (hV : V ≤ W) :
  h.In W
  := ⟨hh.ask.mono hV, hh.tell.mono hV⟩

namespace Control

/-- An actor between the steps of its machine. -/
structure Rests (V : View) (a : Actor) (w : World) (L : Ledger) : Prop where
  calm : Calm V ⟨a.machine, w⟩ L
  handlers : a.handlers.In V
  deferred : ∀ e ∈ a.deferred, e.message.Tame Definition.Plain

structure Held (V : View) (a : Actor) (w : World) (L : Ledger) : Prop where
  machine : Kept V ⟨a.machine, w⟩ L
  calm : (∀ t, a.phase ≠ .running t) → Calm V ⟨a.machine, w⟩ L
  task : ∀ t, a.phase = .running t ∨ a.phase = .waiting t → t.In V
  handlers : a.handlers.In V
  deferred : ∀ e ∈ a.deferred, e.message.Tame Definition.Plain

section

variable {V W : View} {a : Actor} {m : Machine} {w w' : World} {L : Ledger} {t : Task} {result : VarId} {e : Envelope}

section

variable (h : Rests V a w L)

include h

theorem Rests.tame :
  (Session.mk a.machine w).Tame V Definition.Plain
  := h.calm.kept.tame

theorem Rests.withPhase (phase : Phase) :
  Rests V { a with phase } w L
  := ⟨h.calm, h.handlers, h.deferred⟩

theorem Rests.held (hrun : ∀ t, a.phase ≠ .running t) (hwait : ∀ t, a.phase = .waiting t → t.In V) :
  Held V a w (L.cut a.stack.length)
  := by
  have hcut : L.cut a.stack.length = L := h.calm.kept.cut
  rw [hcut]
  refine ⟨h.calm.kept, fun _ => h.calm, fun t ht => ?_, h.handlers, h.deferred⟩
  exact ht.elim (fun ht => absurd ht (hrun t)) (hwait t)

theorem Rests.idle (hphase : a.phase = .idle) :
  Held V a w (L.cut a.stack.length)
  := h.held (fun _ ht => by cases hphase.symm.trans ht) (fun _ ht => by cases hphase.symm.trans ht)

theorem Rests.work (ht : t.In V) :
  Held V (a.work t) w (L.cut (a.work t).stack.length)
  := by
  have hcut : L.cut (a.work t).stack.length = L := h.calm.kept.cut
  have hcalm : Calm V ⟨(a.work t).machine, w⟩ L :=
    h.calm.grown ⟨h.tame.machine.store, h.tame.machine.pending, h.tame.machine.spawns⟩ (.refl V _) rfl h.tame.world
  rw [hcut]
  refine ⟨hcalm.kept, fun _ => hcalm, ?_, h.handlers, h.deferred⟩
  rintro _ (ht' | ht')
  · cases ht'
    exact ht
  · cases ht'

theorem Rests.withWorld (hw : w'.Tame Definition.Plain) :
  Rests V a w' L
  := ⟨h.calm.grown h.tame.machine (.refl V _) rfl hw, h.handlers, h.deferred⟩

end

theorem Held.withWorld (h : Held V a w L) (hw : w'.Tame Definition.Plain) :
  Held V a w' L
  := by
  refine { h with machine := h.machine.withWorld hw, calm := fun hrun => ?_ }
  exact (h.calm hrun).grown h.machine.tame.machine (.refl V _) rfl hw

section

variable (h : Rests V a w L)

include h

theorem Rests.grown {store : Store} (htame : store.Tame W Definition.Plain)
    (hgrown : Store.Grown V W a.store store) :
  Rests W { a with store } w L
  := ⟨h.calm.grown (h.tame.machine.withStore htame hgrown.le) hgrown rfl h.tame.world,
    h.handlers.mono hgrown.le, h.deferred⟩

theorem Rests.respond (id : Nat) {p : Portable} (hp : p.Tame Definition.Plain) :
  ∃ W, V ≤ W ∧ Rests W { a with machine := a.respond id p } w L
  := by
  obtain ⟨W, hreceived⟩ := h.tame.machine.respond id hp
  exact ⟨W, hreceived.grown.le, h.calm.received hreceived, h.handlers.mono hreceived.grown.le, h.deferred⟩

theorem Rests.abandon :
  Rests V a.abandon w (L.cut 0)
  := ⟨h.calm.abandon, h.handlers, h.deferred⟩

/-! ### The end of a task -/

theorem Rests.stop :
  Held V (a.stop w).1 (a.stop w).2 (L.cut (a.stop w).1.stack.length)
  := by
  obtain ⟨-, hclosed⟩ := h.tame.world.close a.id
  have hrefused := hclosed.refuse Definition.plain_absent a.id (a.deferred ++ (w.close a.id).1)
  have hstopped : Rests V (a.stop w).1 (a.stop w).2 L := by
    have hworld := h.withWorld hrefused
    exact { hworld with deferred := forall_mem_nil _ }
  exact hstopped.held nofun nofun

theorem Rests.reply {v : Value} (hv : v.In V) :
  (Actor.reply a.machine v).Tame Definition.Plain
  := by
  have hresolved := h.tame.machine.store.resolve hv
  rw [Actor.reply]
  split
  case h_1 => exact Portable.tame_error Definition.plain_absent _ _
  case h_2 d hd =>
    rw [hd] at hresolved
    split
    next p hp => exact h.tame.machine.store.exportValue hresolved hp
    next => exact Portable.tame_error Definition.plain_absent _ _

theorem Rests.turnReply (hresult : V.vars result) {e : TurnEnd} (he : ∀ v, e = .halted v → v.In V) :
  (a.turnReply result e).Tame Definition.Plain
  := by
  cases e with
  | done => exact h.reply hresult
  | halted v => exact h.reply (he v rfl)
  | suspended | stopped => exact Portable.tame_error Definition.plain_absent _ _

theorem Rests.handlersOf {handlers : Handlers} (hhandlers : a.handlersOf result = .ok handlers) :
  handlers.In V
  := by
  have hstore := h.tame.machine.store
  rw [Actor.handlersOf] at hhandlers
  split at hhandlers
  case h_2 => cases hhandlers
  case h_1 id _ =>
    dsimp only at hhandlers
    split at hhandlers
    case isFalse => cases hhandlers
    case isTrue =>
      split at hhandlers
      case h_2 => cases hhandlers
      case h_1 ask tell hask htell =>
        cases hhandlers
        have hask := Exec.get?_forall (fun f hf => hstore.field id hf) hask
        have htell := Exec.get?_forall (fun f hf => hstore.field id hf) htell
        exact ⟨hstore.resolve hask.toValue, hstore.resolve htell.toValue⟩

theorem Rests.endTask (ht : t.In V) {e : TurnEnd} (he : ∀ v, e = .halted v → v.In V) :
  Held V (a.endTask w t e).1 (a.endTask w t e).2.1
    (L.cut (a.endTask w t e).1.stack.length) ∧ (a.endTask w t e).2.2.spawns = []
  := by
  have hidle {a : Actor} {w : World} {L : Ledger} (h : Rests V a w L) :
      Held V { a with phase := .idle } w (L.cut a.stack.length) :=
    (h.withPhase .idle).idle rfl
  have hdrop (n : Nat) : (L.cut 0).cut n = L.cut 0 := by
    simp [Ledger.cut, live]
  have habandon {w : World} (h : Rests V a w L) :
      Held V { a.abandon with phase := .idle } w (L.cut a.abandon.stack.length) := by
    have hheld := hidle h.abandon
    rwa [hdrop] at hheld
  have hstop {w : World} (h : Rests V a w L) :
      Held V (a.abandon.stop w).1 (a.abandon.stop w).2 (L.cut (a.abandon.stop w).1.stack.length) := by
    have hheld := h.abandon.stop
    rwa [hdrop] at hheld
  cases t with
  | program =>
    exact ⟨(h.withPhase (.finished e)).held (by simp) (by simp), rfl⟩
  | configure =>
    cases e with
    | done =>
      rw [Actor.endTask]
      split
      next handlers hhandlers =>
        have hconfigured : Rests V { a with handlers } w L :=
          { h with handlers := h.handlersOf hhandlers }
        exact ⟨hidle hconfigured, rfl⟩
      next => exact ⟨h.stop, rfl⟩
    | halted | suspended | stopped => exact ⟨h.stop, rfl⟩
  | ask requester request result =>
    have hreplied := h.withWorld (h.tame.world.post requester
      (e := .response (a.turnReply result e) request) (h.turnReply ht he))
    cases e with
    | done | halted => exact ⟨hidle hreplied, rfl⟩
    | suspended => exact ⟨habandon hreplied, rfl⟩
    | stopped => exact ⟨hstop hreplied, rfl⟩
  | tell =>
    cases e with
    | done => exact ⟨hidle h, rfl⟩
    | halted => exact ⟨h.stop, rfl⟩
    | suspended => exact ⟨habandon h, rfl⟩
    | stopped => exact ⟨hstop h, rfl⟩

end

/-! ### Steps -/

/-- What a step of an actor leads to. -/
structure Goes (r : Actor × World × Option Events) (L : Ledger) : Prop where
  held : ∃ V, Held V r.1 r.2.1 L
  spawns : ∀ events, r.2.2 = some events → ∀ s ∈ events.spawns, s.cfg.Tame Definition.Plain

theorem Rests.rest (h : Rests V a w L) (ht : t.In V) {outcome : Outcome} (houtcome : ∀ v, outcome = .halt v → v.In V) :
  Held V (a.rest w t outcome).1 (a.rest w t outcome).2.1 (L.cut (a.rest w t outcome).1.stack.length)
  := by
  have hwait : Held V { a with phase := .waiting t } w (L.cut a.stack.length) := by
    refine (h.withPhase (.waiting t)).held nofun ?_
    rintro _ ⟨⟩
    exact ht
  cases outcome with
  | halt v => exact (h.endTask ht fun v' hv' => by cases hv'; exact houtcome v rfl).1
  | done | suspend =>
    rw [Actor.rest]
    split
    · exact hwait
    · exact (h.endTask ht fun _ h => by cases h).1

theorem Rests.await (h : Rests V a w L) (ht : t.In V) (hphase : a.phase = .waiting t)
    (he : e.message.Tame Definition.Plain) :
  ∃ W, Held W (a.await w t e).1 (a.await w t e).2.1
    (L.cut (a.await w t e).1.stack.length) ∧ (a.await w t e).2.2.spawns = []
  := by
  rw [Actor.await]
  split
  next => exact ⟨V, h.endTask ht nofun⟩
  next p request hmessage hrequest hrequester =>
    rw [hmessage] at he
    obtain ⟨W, hW, hresponded⟩ := h.respond request he
    exact ⟨W, hresponded.work (ht.mono hW), rfl⟩
  next p hdata =>
    have hdeferred : Rests V { a with deferred := a.deferred ++ [e] } w L :=
      { h with deferred := forall_mem_append.mpr ⟨h.deferred, forall_mem_singleton.mpr he⟩ }
    refine ⟨V, hdeferred.held ?_ ?_, rfl⟩
    · intro _ ht'
      cases hphase.symm.trans ht'
    · intro _ ht'
      cases hphase.symm.trans ht'
      exact ht

theorem Rests.accept (h : Rests V a w L) (hphase : a.phase = .idle) (he : e.message.Tame Definition.Plain) :
  ∃ W, Held W (a.accept w e).1 (a.accept w e).2.1
    (L.cut (a.accept w e).1.stack.length) ∧ (a.accept w e).2.2.spawns = []
  := by
  -- a handler is applied to a message, and to a variable for the result of a request
  have hhandle {V : View} {m : Machine} {t : Task} {proc : Value} {args : List VarId}
      (h : Rests V { a with machine := m } w L) (hproc : proc.In V) (hargs : ∀ v ∈ args, V.vars v)
      (ht : t.In V) :
      ∃ W, Held W ({ a with machine := m.pushApply proc args }.work t) w
        (L.cut ({ a with machine := m.pushApply proc args }.work t).stack.length) := by
    obtain ⟨W, hW, hcalm⟩ := h.calm.pushApply hproc hargs
    have hpushed : Rests W { a with machine := m.pushApply proc args } w L :=
      ⟨hcalm, h.handlers.mono hW, h.deferred⟩
    exact ⟨W, hpushed.work (ht.mono hW)⟩
  rw [Actor.accept]
  split
  next => exact ⟨V, h.stop, rfl⟩
  next p hmessage =>
    rw [hmessage] at he
    split
    next request _ _ =>
      obtain ⟨W, -, hresponded⟩ := h.respond request he
      exact ⟨W, hresponded.idle hphase, rfl⟩
    next =>
      obtain ⟨W, htame, hgrown, hvalue⟩ := h.tame.machine.store.importValue he
      have himported := h.grown htame hgrown
      split
      next m hrun =>
        obtain rfl : _ = m := congrArg Prod.snd hrun
        exact ⟨W, himported.idle hphase, rfl⟩
      next v m hrun =>
        obtain rfl : _ = m := congrArg Prod.snd hrun
        obtain ⟨W₁, htame₁, hgrown₁, hmessage⟩ :=
          himported.tame.machine.store.newBound (hvalue v (congrArg Prod.fst hrun))
        have hbound := himported.grown htame₁ hgrown₁
        dsimp only
        split
        next requester request _ _ =>
          obtain ⟨_, htame₂, hgrown₂, hresult⟩ := hbound.tame.machine.store.newVar
          have hnew := hbound.grown htame₂ hgrown₂
          obtain ⟨W₃, hheld⟩ := hhandle (t := .ask requester request _) hnew hnew.handlers.ask
            (forall_mem_cons.mpr ⟨hgrown₂.le.vars _ hmessage, forall_mem_singleton.mpr hresult⟩)
            hresult
          exact ⟨W₃, hheld, rfl⟩
        next =>
          obtain ⟨W₂, hheld⟩ := hhandle (t := .tell) hbound hbound.handlers.tell
            (forall_mem_singleton.mpr hmessage) trivial
          exact ⟨W₂, hheld, rfl⟩

theorem goes_taking {r : Actor × World × Events} (h : ∃ W, Held W r.1 r.2.1 L ∧ r.2.2.spawns = []) :
  Goes (Actor.taking r) L
  := by
  obtain ⟨W, hheld, hspawns⟩ := h
  refine ⟨⟨W, hheld⟩, ?_⟩
  rintro _ ⟨⟩ s hs
  rw [hspawns] at hs
  cases hs

theorem Held.step (h : Held V a w L) :
  Goes (a.step w) (a.log w L)
  := by
  have hrests (hphase : ∀ t, a.phase ≠ .running t) : Rests V a w L :=
    ⟨h.calm hphase, h.handlers, h.deferred⟩
  obtain ⟨⟨W, hW, hkept⟩, hcalm⟩ := h.machine.step
  have hstepped := a.stepped_step w
  have hrunning (t : Task) (h : a.phase = .running t) :
      a.log w L = (Session.log ⟨a.machine, w⟩ L).cut (a.step w).1.stack.length := by
    rw [Actor.log, h]
  have hother (h : ∀ t, a.phase ≠ .running t) : a.log w L = L.cut (a.step w).1.stack.length := by
    rw [Actor.log]
    split
    next t ht => exact absurd ht (h t)
    next => rfl
  generalize a.step w = r, a.deeds w = deeds at hstepped hrunning hother ⊢
  cases hstepped with
  | nothing hphase =>
    have hcut : L.cut a.stack.length = L := h.machine.cut
    rw [hother hphase, hcut]
    exact ⟨⟨V, h⟩, nofun⟩
  | @going t σ hphase hrun =>
    rw [show Session.step ⟨a.machine, w⟩ = (none, σ) from hrun] at hkept
    have hcut := hkept.cut
    rw [Session.height] at hcut
    rw [hrunning t hphase, hcut]
    refine ⟨⟨W, hkept, fun hrun => absurd hphase (hrun t), ?_, h.handlers.mono hW, h.deferred⟩, ?_⟩
    · exact fun t' ht' => (h.task t' ht').mono hW
    · rintro _ ⟨⟩ s hs
      cases hs
  | @rest t σ outcome _ _ hphase hrun hr =>
    subst hr
    rw [show Session.step ⟨a.machine, w⟩ = (some outcome, σ) from hrun] at hcalm
    obtain ⟨W, hW, hcalm, hvalue⟩ := hcalm outcome rfl
    have htame := hcalm.kept.tame
    have hrests : Rests W (a.rested σ.machine) σ.world (Session.log ⟨a.machine, w⟩ L) :=
      ⟨hcalm.grown ⟨htame.machine.store, htame.machine.pending, forall_mem_nil _⟩
        (.refl W _) rfl htame.world, h.handlers.mono hW, h.deferred⟩
    rw [hrunning t hphase]
    refine ⟨⟨W, hrests.rest ((h.task t (.inl hphase)).mono hW) hvalue⟩, ?_⟩
    rintro _ ⟨⟩ s hs
    exact htame.machine.spawns s hs
  | await hphase hreceive hr =>
    subst hr
    obtain ⟨he, hw'⟩ := h.machine.tame.world.receive hreceive
    have hphase' : ∀ t, a.phase ≠ .running t := by simp [hphase]
    have hrests := (hrests hphase').withWorld hw'
    rw [hother hphase']
    exact goes_taking (hrests.await (h.task _ (.inr hphase)) hphase he)
  | @deferred e deferred _ _ hphase hdeferred hr =>
    subst hr
    have hall := h.deferred
    rw [hdeferred] at hall
    obtain ⟨he, hrest⟩ := forall_mem_cons.mp hall
    have hphase' : ∀ t, a.phase ≠ .running t := by simp [hphase]
    have hrests : Rests V { a with deferred } w L := { hrests hphase' with deferred := hrest }
    rw [hother hphase']
    exact goes_taking (hrests.accept hphase he)
  | accept hphase _ hreceive hr =>
    subst hr
    obtain ⟨he, hw'⟩ := h.machine.tame.world.receive hreceive
    have hphase' : ∀ t, a.phase ≠ .running t := by simp [hphase]
    have hrests := (hrests hphase').withWorld hw'
    rw [hother hphase']
    exact goes_taking (hrests.accept hphase he)

/-! ### New actors -/

theorem Rests.configure (h : Rests V a w L) {id : CfgId} (hid : V.cfgs id) :
  ∃ W, Held W ({ a with
        machine := (a.onStore (·.newVar)).2.pushApply
          (.scalar (.proc (.closure (a.store.cfg id).cfgtr)))
          (Actor.roots a.store (a.store.cfg id).args ++ [(a.onStore (·.newVar)).1]) }.work
      (.configure (a.onStore (·.newVar)).1)) w L
  := by
  obtain ⟨G, _, _, _, hgoing⟩ := h.calm
  have hstore := h.tame.machine.store
  have hproc := hstore.cfgtr (hgoing.apart.tagged.shows.cfgs id hid)
  obtain ⟨W, htame, hgrown, hresult⟩ := hstore.newVar
  have hnew := h.grown htame hgrown
  have hargs : ∀ v ∈ Actor.roots a.store (a.store.cfg id).args ++
      [(a.onStore (·.newVar)).1], W.vars v := by
    rw [forall_mem_append, forall_mem_singleton]
    refine ⟨fun v hv => ?_, hresult⟩
    obtain ⟨u, hu, rfl⟩ := mem_map.mp hv
    exact hgrown.le.vars _ (hstore.root ((hstore.cfg id).2 u hu))
  have hclosure : (Value.scalar (.proc (.closure (a.store.cfg id).cfgtr))).In W :=
    hgrown.le.procs _ hproc
  obtain ⟨W₁, hW₁, hcalm⟩ := hnew.calm.pushApply hclosure hargs
  have hpushed : Rests W₁ { a with
        machine := (a.onStore (·.newVar)).2.pushApply
          (.scalar (.proc (.closure (a.store.cfg id).cfgtr)))
          (Actor.roots a.store (a.store.cfg id).args ++ [(a.onStore (·.newVar)).1]) } w L :=
    ⟨hcalm, hnew.handlers.mono hW₁, hnew.deferred⟩
  have hheld := hpushed.work (t := .configure (a.onStore (·.newVar)).1) (hW₁.vars _ hresult)
  have hcut := hpushed.calm.kept.cut
  exact ⟨W₁, hcut ▸ hheld⟩

theorem held_start (maxSteps : Nat) {s : Spawn} (hs : s.cfg.Tame Definition.Plain) (hw : w.Tame Definition.Plain) :
  ∃ V, Held V (Actor.start maxSteps s).1 w {} ∧
    ∀ report, (Actor.start maxSteps s).2 = some report → Rests V (Actor.start maxSteps s).1 w {}
  := by
  have hfailed {V : View} {a : Actor} {report : HaltReport} (hphase : a.phase = .idle) (h : Rests V a w {}) :
      ∃ V, Held V (a, some report).1 w {} ∧
        ∀ report', (a, some report).2 = some report' → Rests V (a, some report).1 w {} :=
    ⟨V, h.idle hphase, fun _ _ => h⟩
  obtain ⟨V, hgoing, -⟩ := going_create maxSteps (some s.actor) hw
  have hcreated : Rests V { id := s.actor, machine := .create maxSteps (some s.actor), phase := .idle } w {} :=
    ⟨⟨_, _, _, _, hgoing⟩, ⟨trivial, trivial⟩, forall_mem_nil _⟩
  obtain ⟨W, htame, hgrown, hvalue⟩ := hcreated.tame.machine.store.importValue hs
  have himported := hcreated.grown htame hgrown
  rw [Actor.start]
  split
  next m hrun =>
    obtain rfl : _ = m := congrArg Prod.snd hrun
    exact hfailed rfl himported
  next v m hrun =>
    obtain rfl : _ = m := congrArg Prod.snd hrun
    split
    case h_2 => exact hfailed rfl himported
    case h_1 id hresolve =>
      have hcfg := himported.tame.machine.store.resolve (hvalue v (congrArg Prod.fst hrun))
      have hid : W.cfgs id := (congrArg (Value.In W) hresolve).mp hcfg
      obtain ⟨W₁, hheld⟩ := himported.configure hid
      exact ⟨W₁, hheld, nofun⟩

end

end Control

end ActorLang
