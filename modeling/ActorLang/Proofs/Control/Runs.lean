import ActorLang.Proofs.Control.Accounts

/-!
# Runs that keep the discipline

`Kept` is the invariant of a session and the ledger of its run: the stack keeps the discipline, and
the accounts are right.  An attempt with a final part is entered in three steps, and the invariant
has a form for each of them.  `Kept.step` says that a step keeps the invariant.
-/

namespace ActorLang

open Kernel (Ident Operand Stmt)
open List

variable {e : Entry} {height n : Nat} {w v : VarId} {stack rest : Stack} {f name x : Ident}
  {env' env : Env} {value : Value}

namespace Control

variable {G G' : Tags} {V W W' : View} {since since' : Since} {Λ Λ' : Labels}
  {caught caught' due due' due₁ : Due} {σ σ' : Session} {L : Ledger} {s body : Stmt}
  {entries left : List Entry} {acts acts' : List Activation} {outcome : Option Outcome}

theorem Apart.withStack (h : Apart G V σ) (stack : Stack) :
  Apart G V (σ.withStack stack)
  := ⟨⟨h.tame.machine.withStack stack, h.tame.world⟩, h.tagged, h.names⟩

theorem Apart.popped (h : Apart G V σ) (rest : Stack) :
  Apart G V (σ.popped rest)
  := ⟨h.tame.popped rest, h.tagged, h.names⟩

/-! ### The invariant -/

structure Going (G : Tags) (V : View) (since : Since) (Λ : Labels) (caught due : Due) (σ : Session)
    (L : Ledger) : Prop where
  apart : Apart G V σ
  typed : Typed G V (Noted (L.entries.map Entry.place) since) L.activations σ.stack Λ caught due
  books : Books G L.entries L.left since due σ.height
  alive : live σ.height L.activations = L.activations

structure Trying (G : Tags) (V : View) (since : Since) (Λ : Labels) (due : Due) (f : Ident) (v : VarId)
    (block attempt : Stmt) (env : Env) (Γ : Typing) (rest : Stack) (entries : List Entry) (σ : Session)
    (L : Ledger) : Prop where
  apart : Apart G V σ
  entered : L.entries = { var := v, height := rest.length } :: entries
  opening : Opening G V (Noted (entries.map Entry.place) since) L.activations σ.store rest Λ due
    f v block attempt env Γ
  books : Books G entries L.left since due (rest.length + 1)

/-- The session keeps the discipline, and the ledger is right. -/
inductive Kept (V : View) (σ : Session) (L : Ledger) : Prop where
  | going {G : Tags} {since : Since} {Λ : Labels} {caught due : Due} (h : Going G V since Λ caught due σ L)
  | opened {G since Λ due f v block attempt env Γ rest entries}
      (hstack : σ.stack = .stmt (.seq [.createProc [] block f, attempt, .call f]) env :: rest)
      (h : Trying G V since Λ due f v block attempt env Γ rest entries σ L)
  | creating {G since Λ due f v block attempt env Γ rest entries}
      (hstack : σ.stack = .stmt (.createProc [] block f) env :: .stmt attempt env :: .stmt (.call f) env :: rest)
      (h : Trying G V since Λ due f v block attempt env Γ rest entries σ L)

/-- The session may go on with a throw or with another procedure. -/
def Calm (V : View) (σ : Session) (L : Ledger) : Prop :=
  ∃ G since Λ due, Going G V since Λ due due σ L

/-- What becomes of the session by a step. -/
structure Stays (V : View) (σ : Session) (L : Ledger) : Prop where
  kept : ∃ W, V ≤ W ∧ Kept W σ.step.2 (σ.log L)
  calm : ∀ outcome, σ.step.1 = some outcome → ∃ W, V ≤ W ∧ Calm W σ.step.2 (σ.log L) ∧
    ∀ value, outcome = .halt value → value.In W

/-! ### Throws -/

theorem live_zero (acts : List Activation) :
  live 0 acts = []
  := filter_eq_nil_iff.mpr fun _ _ => by simp

theorem mem_places (he : e ∈ entries) :
  (e.var, e.height) ∈ entries.map Entry.place
  := mem_map.mpr ⟨e, he, rfl⟩

/-- A final part is due again only because a throw has escaped. -/
theorem escapes_of_resumed {before around : List Entry} {taken more : Due} {a : Activation}
    (hthrows : σ.throws = true) (hbooks : Books G (before ++ e :: around) left since due height)
    (hlisted : Listed ((before ++ e :: around).map Entry.place) taken)
    (hheight : e.height < σ.step.2.height) (ha : a ∈ acts) (hbase : σ.step.2.height ≤ a.base.length)
    (hcallee : a.callee = some w) (hw : w :: more <:+ taken) (he : e.var ∈ taken)
    (hmore : e.var ∉ more) :
  σ.escapes acts e around = true
  := by
  have hle : w ≤ e.var := by
    obtain ⟨_, rfl⟩ := hw
    rcases mem_append.mp he with he | he
    · have hgt := (pairwise_append.mp hlisted.order).2.2 _ he w (mem_cons_self ..)
      exact Nat.le_of_lt hgt
    · rcases mem_cons.mp he with heq | he
      · exact Nat.le_of_eq heq.symm
      · exact absurd he hmore
  obtain ⟨n, hn⟩ := hlisted.entered w (hw.subset (mem_cons_self ..))
  obtain ⟨e', he', hplace⟩ := mem_map.mp hn
  have hvar : e'.var = w := congrArg Prod.fst hplace
  have haround : e' ∈ e :: around := by
    rcases mem_append.mp he' with hbefore | haround
    · have horder := hbooks.order
      rw [map_append] at horder
      have hgt := (pairwise_append.mp horder).2.2 e'.var (mem_map_of_mem hbefore) e.var (mem_cons_self ..)
      exact absurd (hvar ▸ hle) (Nat.not_le.mpr hgt)
    · exact haround
  simp only [Session.escapes, hthrows, Bool.true_and, Bool.and_eq_true, decide_eq_true_eq, any_eq_true]
  exact ⟨hheight, a, ha, hbase, e', haround, hcallee.trans (congrArg some hvar.symm)⟩

theorem Typed.Caught.turns {below : Stack} {taken : Due} {Γ : Typing}
    (hc : Caught G V (Noted (entries.map Entry.place) since) acts caught name s env below acts' Λ caught' taken Γ)
    (hbooks : Books G entries left since caught height) (hthrows : σ.throws = true)
    (hcalled : σ.called? = none) (hheight : σ.step.2.height ≤ below.length + 1)
    (houtside : ∀ e ∈ entries, σ.step.2.height ≤ e.height → e.var ∉ taken) :
  Turns σ acts entries left since (since.resume taken) taken σ.step.2.height where
  pending e he := by
    by_cases htaken : e.var ∈ taken
    · simp [Since.resume, htaken]
    · have hnot : since e.var ≠ none :=
        fun hnone => htaken (hc.suffix.subset ((hbooks.pending e he).mpr hnone))
      simp [Since.resume, htaken, hnot]
  outside := houtside
  called e _ h := by cases hcalled.symm.trans h
  invoked e he hnone hsome := by
    rw [Since.resume, if_pos (hc.suffix.subset ((hbooks.pending e he).mpr hnone))] at hsome
    exact absurd rfl hsome
  resumed _ e _ hentries hsome hnone := by
    have he : e ∈ entries := by simp [hentries]
    have htaken : e.var ∈ taken := by
      by_contra htaken
      rw [Since.resume, if_neg htaken] at hnone
      exact hsome hnone
    have hcaught : e.var ∉ caught := fun hmem => hsome ((hbooks.pending e he).mp hmem)
    obtain ⟨_, hacts, hdropped, hagain⟩ := hc.dropped
    obtain ⟨a, ha, w, _, hcallee, hw, hmore, -⟩ := hagain e.var htaken hcaught
    refine escapes_of_resumed hthrows (hentries ▸ hbooks) (hentries ▸ hc.due.toListed) ?_ ?_
      (Nat.le_trans hheight (hdropped a ha)) hcallee hw htaken hmore
    · exact Nat.lt_of_not_le fun hle => houtside e he hle htaken
    · rw [hacts]
      exact mem_append_left _ ha
  gone e _ _ h := by cases hcalled.symm.trans h

/-- What becomes of a throw. -/
structure Thrown (G : Tags) (V W : View) (since since' : Since) (entries : List Entry) (Λ' : Labels)
    (caught' due' : Due) (stack : Stack) (value : Value) (σ : Session) (L : Ledger) : Prop where
  view : V ≤ W
  apart : Apart G W σ.step.2
  typed : Typed G W (Noted (entries.map Entry.place) since') (live σ.step.2.height L.activations)
    σ.step.2.stack Λ' caught' due'
  turns : Turns σ L.activations entries L.left since since' due' σ.step.2.height
  height : σ.step.2.height ≤ stack.length
  halts : ∀ outcome, σ.step.1 = some outcome → outcome = .halt value ∧ caught' = due'

theorem interrupt_cases {e : Interrupt} (hapart : Apart G V σ) (he : e.Tame V) (frame : Frame) :
  (∃ v, e = .suspend v) ∨ ∃ value σ', value.In V ∧ Later G V σ G V σ' ∧ σ.interrupt frame e =
    ((σ'.unwind value).1, { σ' with machine := (σ'.unwind value).2 })
  := by
  cases e with
  | suspend v => exact .inl ⟨v, rfl⟩
  | throw value => exact .inr ⟨value, σ, he, hapart.later_self, rfl⟩
  | fault f =>
    obtain ⟨htame, hgrown, hvalue⟩ := hapart.tame.machine.faultValue f
    refine .inr ⟨(σ.faultValue f).1, { σ with machine := (σ.faultValue f).2 }, hvalue,
      hapart.later ⟨htame, hapart.tame.world⟩ hgrown rfl, rfl⟩

section Thrown

variable (hcalled : σ.called? = none) (hapart : Apart G V σ') (hvalue : value.In V)
  (hstep : σ.step = ((σ'.unwind value).1, { σ' with machine := (σ'.unwind value).2 }))
  (htyped : Typed G V (Noted (entries.map Entry.place) since) L.activations stack Λ caught due')
  (hbooks : Books G entries L.left since caught height)

include hcalled hapart hstep htyped hbooks

theorem thrown_uncaught (hstack : Machine.handlerBelow σ'.stack = none)
    (hnone : Machine.handlerBelow stack = none) :
  Thrown G V V since since entries .none [] [] stack value σ L
  := by
  obtain rfl := htyped.uncaught hnone
  rw [Machine.unwind_of_handlerBelow_none hstack] at hstep
  have hstep₂ : σ.step.2 = σ'.withStack [] := congrArg Prod.snd hstep
  have hheight : σ.step.2.height = 0 := by
    rw [hstep₂]
    rfl
  refine ⟨V.le_refl, ?_, ?_, ?_, ?_, ?_⟩
  · rw [hstep₂]
    exact hapart.withStack []
  · rw [hheight, live_zero, hstep₂]
    exact .nil
  · refine hbooks.turns (fun _ => Iff.rfl) ?_ fun _ _ _ => not_mem_nil
    rw [hcalled]
    exact nofun
  · rw [hheight]
    exact Nat.zero_le _
  · rw [hstep]
    rintro _ ⟨⟩
    exact ⟨rfl, rfl⟩

include hvalue

theorem thrown_caught {below : Stack} (hthrows : σ.throws = true)
    (hstack : Machine.handlerBelow σ'.stack = some (name, s, env, below))
    (hbelow : Machine.handlerBelow stack = some (name, s, env, below)) :
  ∃ W since' Λ' caught' due'', Thrown G V W since since' entries Λ' caught' due'' stack value σ L
  := by
  obtain ⟨acts', Λ', caught', taken, _, hc⟩ := htyped.throw hbelow
  obtain ⟨W, v, htame, hgrown, hv, hnone, hlanding⟩ := hapart.tame.machine.caught hvalue hstack
  have hstep₂ : σ.step.2 = { σ' with machine := (σ'.unwind value).2 } := congrArg Prod.snd hstep
  have hapart' : Apart G W σ.step.2 := by
    rw [hstep₂]
    exact ⟨⟨htame, hapart.tame.world⟩, hapart.tagged.grown hgrown, hgrown.le.names.symm ▸ hapart.names⟩
  have hstack' : σ.step.2.stack = below.push s (env.extend [(name, v)]) := by
    rw [hstep₂]
    exact hlanding
  have hle : σ.step.2.height ≤ below.length + 1 := by
    rw [Session.height, hstack']
    fun_cases Stack.push below s (env.extend [(name, v)]) <;> simp
  have hbelowTyped : Typed G W (Noted (entries.map Entry.place) (since.resume taken)) acts' below Λ' caught' taken :=
    hc.typed.mono G.le_refl hgrown.le fun _ hheight _ _ hd => hd.resume hc.due hheight
  have hnoted : Noted (entries.map Entry.place) (since.resume taken) (below.length + 1) .stmt taken :=
    { hc.due with handled := by simp, begun := by simp }
  have hsuits := (hc.suits.mono G.le_refl hgrown.le).extend_plain (fun x => Iff.rfl)
    (forall_mem_singleton.mpr hv : ∀ b ∈ [(name, v)], W.vars b.2)
  have howned : Owned acts' s.catches := by
    rw [hc.catches]
    exact fun _ h => by cases h
  obtain ⟨Λ'', caught'', hpushed⟩ := (hbelowTyped.push hc.ok hsuits howned hnoted).trim
  have hlive : live σ.step.2.height L.activations = live σ.step.2.height acts' := by
    obtain ⟨_, hacts, hdropped, -⟩ := hc.dropped
    rw [hacts]
    exact live_append (fun a ha => Nat.le_trans hle (hdropped a ha)) acts'
  have htyped' : Typed G W (Noted (entries.map Entry.place) (since.resume taken))
      (live σ.step.2.height L.activations) σ.step.2.stack Λ'' caught'' taken := by
    rw [hlive, Session.height, hstack']
    exact hpushed
  refine ⟨W, _, Λ'', caught'', taken, hgrown.le, hapart', htyped', ?_, ?_, ?_⟩
  · exact hc.turns hbooks hthrows hcalled hle fun e he hheight => htyped'.outside (mem_places he) hheight
  · exact Nat.le_trans hle (Machine.handlerBelow_suffix hbelow).length_le
  · rw [hstep, hnone]
    simp

end Thrown

theorem thrown {frames : Stack} {e : Interrupt} (hexec : σ.Executes s env frames (.error e) σ')
    (hlater : Later G V (σ.popped frames) G' W σ') (he : e.Tame W) (hsuspend : ∀ v, e ≠ .suspend v)
    (htyped : Typed G' W (Noted (entries.map Entry.place) since) L.activations stack Λ caught due')
    (hbooks : Books G' entries L.left since caught height)
    (hframes : Machine.handlerBelow frames = Machine.handlerBelow stack) :
  ∃ value, value.In W ∧ ∃ W' since' Λ' caught' due'',
    Thrown G' W W' since since' entries Λ' caught' due'' stack value σ L
  := by
  obtain ⟨value, σ₂, hvalue, hlater', hthrow⟩ := (interrupt_cases hlater.apart he (.stmt s env)).resolve_left
    fun ⟨v, hv⟩ => hsuspend v hv
  have hcalled := hexec.plain_error.called?
  have hstep := hexec.step_error.trans hthrow
  have hstack : Machine.handlerBelow σ₂.stack = Machine.handlerBelow stack := by
    rw [hlater'.stack, hlater.stack]
    exact hframes
  refine ⟨value, hvalue, ?_⟩
  cases hbelow : Machine.handlerBelow stack with
  | none =>
    exact ⟨W, since, .none, [], [], thrown_uncaught hcalled hlater'.apart hstep htyped hbooks
      (hstack.trans hbelow) hbelow⟩
  | some found =>
    exact thrown_caught hcalled hlater'.apart hvalue hstep htyped hbooks (hexec.throws hsuspend)
      (hstack.trans hbelow) hbelow

/-! ### Steps -/

theorem Books.log (h : Books G L.entries L.left since due height)
    (ht : Turns σ L.activations L.entries L.left since since' due' σ.step.2.height) (hG : G ≤ G')
    (hopened : σ.opened? = none) (hlimit : σ.hitsLimit = false) :
  Books G' (σ.log L).entries (σ.log L).left since' due' σ.step.2.height
  := by
  rw [Session.log_entries hopened, Session.log_left hopened hlimit]
  exact h.note ht hG

theorem going_of_step (hapart : Apart G V σ.step.2) (htyped : Typed G V (Noted (entries.map Entry.place) since)
      (live σ.step.2.height (σ.entered?.toList ++ L.activations)) σ.step.2.stack Λ caught due)
    (hentries : (σ.log L).entries = (σ.noteAll L.activations entries).filter (·.height < σ.step.2.height))
    (hbooks : Books G (σ.log L).entries (σ.log L).left since due σ.step.2.height) :
  Going G V since Λ caught due σ.step.2 (σ.log L) where
  apart := hapart
  typed := by
    rw [hentries, Session.place_noteAll]
    exact htyped.noted fun height hle _ _ h => h.trim hle
  books := hbooks
  alive := by
    rw [Session.log, live, live, filter_filter]
    simp only [Bool.and_self]

theorem Books.cap (h : Books G entries left since due height) (n : Nat) :
  Books G entries left (since.cap n) due height
  := by
  refine { h with pending := fun e he => ?_, count := fun e he => ⟨(h.count e he).1, ?_⟩ }
  · rw [Since.cap, Option.map_eq_none_iff]
    exact h.pending e he
  · have hcount := (h.count e he).2
    rw [Since.cap]
    cases hsince : since e.var with
    | none | some =>
      rw [hsince] at hcount
      exact hcount

theorem Books.admits (h : Books G entries left since due (rest.length + 1))
    (hlisted : Listed (entries.map Entry.place) due)
    (hsince : ∀ v m, since v = some m → m ≤ rest.length) :
  Admits G (Noted (entries.map Entry.place) since) (Listed (entries.map Entry.place)) rest.length due
  := by
  have houtside {above : Nat} (habove : rest.length < above) (due : Due) (v : VarId) (n : Nat)
      (hv : (v, n) ∈ entries.map Entry.place) (hn : above ≤ n) : v ∉ due := by
    obtain ⟨e, he, hplace⟩ := mem_map.mp hv
    cases hplace
    have := h.heights e he
    omega
  -- nothing that has been invoked has left a higher stack since
  have hpending {e : Entry} (he : e ∈ entries) (hle : ∀ m, since e.var = some m → rest.length < m) :
      e.var ∈ due := by
    refine (h.pending e he).mpr (Option.eq_none_iff_forall_ne_some.mpr fun m hm => ?_)
    exact Nat.not_lt.mpr (hsince _ m hm) (hle m hm)
  refine ⟨fun _ _ _ h => h.toListed, listed_nil _, fun _ _ h => h.suffix, hlisted, ?_, ?_, ?_⟩
  · exact fun above due' habove hlisted =>
      { hlisted with outside := houtside habove due', handled := nofun, begun := nofun }
  · refine fun above habove => { hlisted with outside := houtside habove due, handled := ?_, begun := nofun }
    intro _ v n hv _
    obtain ⟨e, he, hplace⟩ := mem_map.mp hv
    cases hplace
    refine ⟨fun hdue m hm => ?_, fun hle => hpending he fun m hm => Nat.lt_of_lt_of_le habove (hle m hm)⟩
    cases ((h.pending e he).mp hdue).symm.trans hm
  · intro _ _ _ _ a htyped hheight hcallee
    refine { hlisted with outside := ?_, handled := nofun, begun := ?_ }
    · exact fun v n hv hn => htyped.outside hv (hheight ▸ hn)
    · rintro _ ⟨⟩ v n hv -
      obtain ⟨e, he, hplace⟩ := mem_map.mp hv
      cases hplace
      exact ⟨hpending he, fun hv => absurd (h.finals e he) (hcallee _ hv)⟩

theorem Books.still (h : Books G L.entries L.left since due height) (hstep : σ.step = (outcome, σ'))
    (hapart : Apart G' W σ') (hG : G ≤ G')
    (htyped : Typed G' W (Noted (L.entries.map Entry.place) since)
      (live σ'.height (σ.entered?.toList ++ L.activations)) σ'.stack Λ caught due)
    (hcalled : ∀ v, σ.called? = some v → ¬ G.IsFinal v) (hopened : σ.opened? = none)
    (hlimit : σ.hitsLimit = false) :
  Going G' W since Λ caught due σ.step.2 (σ.log L)
  := by
  obtain rfl : σ.step.2 = σ' := congrArg Prod.snd hstep
  refine going_of_step hapart htyped (Session.log_entries hopened) (h.log ?_ hG hopened hlimit)
  exact h.turns (fun _ => Iff.rfl) hcalled fun e he hheight => htyped.outside (mem_places he) hheight

theorem Books.plain (h : Books G L.entries L.left since due height) (hplain : σ.Plain)
    (hstep : σ.step = (outcome, σ')) (hapart : Apart G' W σ') (hG : G ≤ G')
    (htyped : Typed G' W (Noted (L.entries.map Entry.place) since) (live σ'.height L.activations)
      σ'.stack Λ caught due) :
  Going G' W since Λ caught due σ.step.2 (σ.log L)
  := by
  refine h.still hstep hapart hG ?_ (hplain.called? ▸ nofun) hplain.opened? hplain.hitsLimit
  rw [hplain.toList_entered?]
  exact htyped

theorem Kept.stays (h : Kept W σ.step.2 (σ.log L)) (hV : V ≤ W) (hstep : σ.step.1 = none) :
  Stays V σ L
  := by
  refine ⟨⟨W, hV, h⟩, fun outcome houtcome => ?_⟩
  cases hstep.symm.trans houtcome

theorem Going.stays (h : Going G W since Λ due due σ.step.2 (σ.log L)) (hV : V ≤ W)
    (hvalue : ∀ value, σ.step.1 = some (.halt value) → value.In W) :
  Stays V σ L
  := by
  refine ⟨⟨W, hV, .going h⟩, fun outcome houtcome => ⟨W, hV, ⟨_, _, _, _, h⟩, ?_⟩⟩
  rintro value rfl
  exact hvalue value houtcome

theorem Thrown.stays (ht : Thrown G W W' since since' entries Λ' caught' due' stack value σ L) (hvalue : value.In W)
    (hV : V ≤ W) (hgoing : Going G W' since' Λ' caught' due' σ.step.2 (σ.log L)) :
  Stays V σ L
  := by
  have hview := View.le_trans hV ht.view
  cases hstep : σ.step.1 with
  | none => exact (Kept.going hgoing).stays hview hstep
  | some outcome =>
    obtain ⟨rfl, rfl⟩ := ht.halts outcome hstep
    refine hgoing.stays hview fun value' hvalue' => ?_
    cases hstep.symm.trans hvalue'
    exact hvalue.mono ht.view

theorem stays_limit (hapart : Apart G V σ) (hbooks : Books G entries L.left since due height)
    (hstack : σ.stack = .stmt s env :: rest) (hlimit : σ.Limited) :
  Stays V σ L
  := by
  have hstep := Session.step_limit hstack hlimit
  have hhits : σ.hitsLimit = true := by
    simp only [Session.hitsLimit, hstack, hlimit, decide_true]
  have hexecutes : σ.executes? = none := by
    simp only [Session.executes?, hstack, if_pos hlimit]
  have hentered : σ.entered? = none := by rw [Session.entered?, hexecutes]
  have hcalled : σ.called? = none := by
    rw [Session.called?, hentered]
    rfl
  have hheight : σ.step.2.height = 0 := by
    rw [hstep]
    rfl
  have hempty (entries : List Entry) : entries.filter (·.height < 0) = [] :=
    filter_eq_nil_iff.mpr fun _ _ => by simp
  have hlog : σ.log L = { left := L.left } := by
    simp only [Session.log, hheight, live_zero, hempty, hhits, if_true, Session.countCall_self hcalled, nil_append]
  obtain ⟨htame, hgrown⟩ := hapart.tame.exhausted
  have hgoing : Going G V since .none [] [] σ.step.2 (σ.log L) := by
    rw [hlog, hstep]
    exact ⟨⟨htame, hapart.tagged.grown hgrown, hapart.names⟩, .nil, hbooks.nil since [] 0, rfl⟩
  refine hgoing.stays V.le_refl fun value hvalue => ?_
  rw [hstep] at hvalue
  cases hvalue
  trivial

theorem Going.done (h : Going G V since Λ caught due σ L) (hstack : σ.stack = []) :
  Stays V σ L
  := by
  have hstep := Session.step_done hstack
  have hplain : σ.Plain := Session.plain_of_not_stmt fun s env rest hs => by cases hstack.symm.trans hs
  have hgoing := h.books.plain hplain hstep h.apart G.le_refl (h.alive.symm ▸ h.typed)
  have hlive := h.alive
  have htyped := h.typed
  rw [Session.height, hstack] at hlive
  rw [hstack] at htyped
  obtain ⟨-, rfl, rfl⟩ := htyped.nil_cases hlive
  refine hgoing.stays V.le_refl fun value hvalue => ?_
  rw [hstep] at hvalue
  cases hvalue

theorem Going.leave (h : Going G V since Λ caught due σ L) (hstack : σ.stack = .handler name s env :: rest) :
  Stays V σ L
  := by
  have hstep := Session.step_leave hstack
  have hplain : σ.Plain :=
    Session.plain_of_not_stmt fun s env rest hs => by cases hstack.symm.trans hs
  have hlive := h.alive
  have htyped := h.typed
  rw [Session.height, hstack] at hlive
  rw [hstack] at htyped
  have hrest : ∃ Λ' caught', Typed G V (Noted (L.entries.map Entry.place) since) L.activations rest Λ' caught' due := by
    rcases htyped.frame_cases hlive with ⟨_, _, _, _, _, hframe, -⟩ | ⟨_, _, _, caught', -, hrest⟩
    · cases hframe
    · exact ⟨_, caught', hrest⟩
  obtain ⟨_, _, hrest⟩ := hrest
  obtain ⟨_, _, hrest⟩ := hrest.trim
  have hgoing := h.books.plain hplain hstep (h.apart.withStack rest) G.le_refl hrest
  exact (Kept.going hgoing).stays V.le_refl (congrArg Prod.fst hstep)

theorem Books.invoke (h : Books G entries left since (w :: due') height)
    (hlisted : Listed (entries.map Entry.place) (w :: due')) (hcalled : σ.called? = some w)
    (acts : List Activation) (houtside : ∀ e ∈ entries, n ≤ e.height → e.var ∉ due') (m : Nat) :
  Turns σ acts entries left since (since.invoke w m) due' n
  := by
  have hw : w ∉ due' := fun hw => Nat.lt_irrefl w ((pairwise_cons.mp hlisted.order).1 w hw)
  have hdue : ∃ e ∈ entries, e.var = w := by
    obtain ⟨k, hk⟩ := hlisted.entered w (mem_cons_self ..)
    obtain ⟨e, he, hplace⟩ := mem_map.mp hk
    exact ⟨e, he, congrArg Prod.fst hplace⟩
  refine ⟨?_, houtside, ?_, ?_, ?_, ?_⟩
  · intro e he
    by_cases hew : e.var = w
    · simp [Since.invoke, hew, hw]
    · have hpending := h.pending e he
      simpa [Since.invoke, hew] using hpending
  · intro e he hc
    obtain rfl : w = e.var := Option.some.inj (hcalled.symm.trans hc)
    exact ⟨(h.pending e he).mp (mem_cons_self ..), by simp [Since.invoke]⟩
  · intro e _ hnone hsome
    by_cases hew : e.var = w
    · rw [hcalled, hew]
    · rw [Since.invoke, if_neg hew] at hsome
      exact absurd hnone hsome
  · intro _ e _ _ hsome hnone
    by_cases hew : e.var = w
    · rw [Since.invoke, if_pos hew] at hnone
      cases hnone
    · rw [Since.invoke, if_neg hew] at hnone
      exact absurd hnone hsome
  · intro e he hc hcall
    obtain ⟨e', he', hvar⟩ := hdue
    refine (h.gone e he hc).2.2 e' he' ?_
    rw [hvar]
    exact Option.some.inj (hcalled.symm.trans hcall)

/-- A statement is about to be executed. -/
structure Ahead (G : Tags) (V : View) (since : Since) (Λ : Labels) (caught due due' : Due) (Γ : Typing)
    (s : Stmt) (env : Env) (rest : Stack) (σ : Session) (L : Ledger) : Prop where
  apart : Apart G V σ
  top : Top G V (Noted (L.entries.map Entry.place) since) L.activations rest Λ caught due due' Γ s env
  books : Books G L.entries L.left since due (rest.length + 1)
  admits : Admits G (Noted (L.entries.map Entry.place) since) (Listed (L.entries.map Entry.place)) rest.length due
  alive : live (rest.length + 1) L.activations = L.activations
  low : ∀ v m, since v = some m → m ≤ rest.length

theorem Going.ahead (h : Going G V since Λ caught due σ L) (hstack : σ.stack = .stmt s env :: rest) :
  ∃ Λ' due' Γ, Ahead G V (since.cap rest.length) Λ' caught due due' Γ s env rest σ L
  := by
  have hlive := h.alive
  have htyped := h.typed
  have hbooks := h.books.cap rest.length
  rw [Session.height, hstack] at hlive hbooks
  rw [hstack] at htyped
  have hlow (v : VarId) (m : Nat) (hm : since.cap rest.length v = some m) : m ≤ rest.length := by
    obtain ⟨_, -, rfl⟩ := Option.map_eq_some_iff.mp hm
    exact Nat.min_le_right _ _
  have hadmits := hbooks.admits htyped.listed.2 hlow
  rcases htyped.frame_cases hlive with
    ⟨_, _, Γ, Λ', due', hframe, hrest, hok, hsuits, howned, -⟩ | ⟨_, _, _, _, hframe, -⟩
  · cases hframe
    have hrest := hrest.noted fun _ hle _ _ hd => hd.cap hle
    exact ⟨Λ', due', Γ, h.apart, ⟨hrest, hok, hsuits, howned⟩, hbooks, hadmits, hlive, hlow⟩
  · cases hframe

section Ahead

variable {Γ Γ' : Typing} {next : Next} {e : Interrupt}

theorem Ahead.proceed (h : Ahead G V since Λ caught due due₁ Γ s env rest σ L)
    (hexec : σ.Executes s env rest (.ok next) σ') (hlater : Later G V (σ.popped rest) G' W σ')
    (hon : next.onStack rest = .ok stack)
    (htyped : Typed G' W (Noted (L.entries.map Entry.place) since) acts' stack Λ' caught' due)
    (hlive : live stack.length acts' = live stack.length ((entering rest env s next).toList ++ L.activations))
    (hcalled : ∀ v r, (entering rest env s next).bind (·.callee) = some v → G.vars v = some r → r.final = none)
    (hbegins : beginning rest s next = none) :
  Stays V σ L
  := by
  have hstep : σ.step = (none, σ'.withStack stack) := by
    rw [hexec.step_ok, Session.proceed, hlater.stack]
    simp only [Session.popped, hon]
    rfl
  obtain ⟨Λ₁, caught₁, htrim⟩ := htyped.trim
  have hgoing : Going G' W since Λ₁ caught₁ due σ.step.2 (σ.log L) := by
    refine h.books.still hstep (hlater.apart.withStack stack) hlater.tags ?_ ?_ ?_ hexec.hitsLimit
    · rw [hexec.entered?_ok]
      exact hlive ▸ htrim
    · intro v hv
      rw [Session.called?, hexec.entered?_ok] at hv
      rintro ⟨r, hr, hfinal⟩
      rw [hcalled v r hv hr] at hfinal
      cases hfinal
    · rw [hexec.opened?_ok, hbegins]
  exact (Kept.going hgoing).stays hlater.view (congrArg Prod.fst hstep)

theorem Ahead.invoke {Λ₀ : Labels} (h : Ahead G V since Λ caught (w :: due) due₁ Γ (.call f) env rest σ L)
    (hexec : σ.Executes (.call f) env rest (.ok (.enter body env')) (σ.popped rest))
    (hf : env.lookup f = some w)
    (hrest : Typed G V (Noted (L.entries.map Entry.place) since) L.activations rest Λ₀ caught due)
    (hcaught : due = caught ∨ w :: due <:+ caught)
    (hbody : ∀ P', Typed G V P' L.activations rest Λ₀ caught due →
      P' rest.length (.entered ⟨rest, body, some w⟩) due → P' (rest.length + 1) .stmt due →
      Typed G V P' (⟨rest, body, some w⟩ :: L.activations) (rest.push body env') Λ' due due) :
  Stays V σ L
  := by
  have hstep : σ.step = (none, (σ.popped rest).withStack (rest.push body env')) := hexec.step_ok
  have hentered : σ.entered? = some ⟨rest, body, some w⟩ := by
    rw [hexec.entered?_ok, Stmt.call, entering, Operand.var?, hf]
  have hcalled : σ.called? = some w := by
    rw [Session.called?, hentered]
    rfl
  have hopened : σ.opened? = none := hexec.opened?_ok
  have hheight : σ.step.2.height = (rest.push body env').length := by
    rw [hstep]
    rfl
  have hlisted := h.admits.here
  have hdue : w ∉ due := fun hw => Nat.lt_irrefl w ((pairwise_cons.mp hlisted.order).1 w hw)
  have hpending {v : VarId} {n : Nat} (hv : (v, n) ∈ L.entries.map Entry.place) :
      v ∈ w :: due ↔ since v = none := by
    obtain ⟨e, he, hplace⟩ := mem_map.mp hv
    cases hplace
    exact h.books.pending e he
  have hsince : since w = none := by
    obtain ⟨n, hn⟩ := hlisted.entered w (mem_cons_self ..)
    exact (hpending hn).mp (mem_cons_self ..)
  -- the final part has been invoked at the height of what is below the call
  have hrest' : Typed G V (Noted (L.entries.map Entry.place) (since.invoke w rest.length)) L.activations rest Λ₀
      caught due :=
    hrest.noted fun height hle _ _ hd => hd.invoke hsince hle
  have hnoted : Noted (L.entries.map Entry.place) (since.invoke w rest.length) rest.length
      (.entered ⟨rest, body, some w⟩) due := by
    refine { hrest.listed.2 with outside := fun v n hv => hrest.outside hv, handled := by simp, begun := ?_ }
    rintro _ ⟨⟩ v n hv hn
    refine ⟨fun hlow => ?_, ?_⟩
    · by_cases hvw : v = w
      · exact absurd (hlow rest.length (by simp [Since.invoke, hvw])) (Nat.lt_irrefl _)
      · simp only [Since.invoke, if_neg hvw] at hlow
        refine (mem_cons.mp ((hpending hv).mpr ?_)).resolve_left hvw
        exact Option.eq_none_iff_forall_ne_some.mpr fun m hm => Nat.not_lt.mpr (h.low v m hm) (hlow m hm)
    · rintro ⟨⟩
      exact hrest.bare_or_leaving hv hsince hdue hcaught
  have hstmt := h.admits.stmt (rest.length + 1) due (Nat.lt_succ_self _) hrest.listed.2
  have htyped := hbody _ hrest' hnoted { hstmt with handled := by simp, begun := by simp }
  have hturns := h.books.invoke hlisted hcalled L.activations
    (fun e he hle => htyped.outside (mem_places he) (hheight ▸ hle)) rest.length
  obtain ⟨Λ₁, caught₁, htrim⟩ := htyped.trim
  have htyped' : Typed G V (Noted (L.entries.map Entry.place) (since.invoke w rest.length))
      (live σ.step.2.height (σ.entered?.toList ++ L.activations)) σ.step.2.stack Λ₁ caught₁
      due := by
    rw [hentered, hheight, hstep]
    exact htrim
  have happart : Apart G V σ.step.2 := by
    rw [hstep]
    exact (h.apart.popped rest).withStack _
  have hgoing := going_of_step happart htyped' (Session.log_entries hopened)
    (h.books.log hturns G.le_refl hopened hexec.hitsLimit)
  exact (Kept.going hgoing).stays V.le_refl (congrArg Prod.fst hstep)

theorem Ahead.opening {block attempt : Stmt} (h : Ahead G V since Λ caught due due₁ Γ
      (.scope [f] (.seq [.createProc [] block f, attempt, .call f])) env rest σ L)
    (hexec : σ.Executes (.scope [f] (.seq [.createProc [] block f, attempt, .call f])) env rest
      (.ok (.enter (.seq [.createProc [] block f, attempt, .call f]) env')) σ')
    (hlater : Later G V (σ.popped rest) G V σ')
    (hopening : Opening G V (Noted (L.entries.map Entry.place) since) L.activations
      σ'.store rest Λ' due f v block attempt env' Γ') :
  Stays V σ L
  := by
  have hstep : σ.step = (none, σ'.withStack
      (.stmt (.seq [.createProc [] block f, attempt, .call f]) env' :: rest)) := by
    rw [hexec.step_ok, Session.proceed, hlater.stack]
    rfl
  have hheight : σ.step.2.height = rest.length + 1 := by
    rw [hstep]
    rfl
  have hentered : σ.entered? = none := hexec.entered?_ok
  have hopened : σ.opened? = some { var := v, height := rest.length } := by
    rw [hexec.opened?_ok, beginning, if_pos hopening.isTry, hopening.lookup]
    rfl
  have hturns : Turns σ L.activations L.entries L.left since since due (rest.length + 1) := by
    refine h.books.turns (fun _ => Iff.rfl) ?_ ?_
    · rw [Session.called?, hentered]
      simp
    · exact fun e he hle => absurd (h.books.heights e he) (Nat.not_lt.mpr hle)
  have hlog : σ.log L =
      { activations := L.activations
        entries := { var := v, height := rest.length } ::
          (σ.noteAll L.activations L.entries).filter (·.height < rest.length + 1)
        left := (σ.noteAll L.activations L.entries).filter (rest.length + 1 ≤ ·.height) ++
          L.left.map σ.countCall } := by
    simp [Session.log, hopened, hheight, hentered, hexec.hitsLimit, h.alive]
  have htrying : Trying G V since Λ' due f v block attempt env' Γ' rest
      ((σ.noteAll L.activations L.entries).filter (·.height < rest.length + 1)) σ.step.2 (σ.log L) := by
    have hrest := hopening.rest.noted fun height hle _ _ hd =>
      hd.trim (Nat.le_succ_of_le hle)
    rw [← Session.place_noteAll (σ := σ) L.activations] at hrest
    rw [hlog, hstep]
    exact ⟨hlater.apart.withStack _, rfl, { hopening with rest := hrest }, h.books.note hturns G.le_refl⟩
  refine (Kept.opened ?_ htrying).stays V.le_refl (congrArg Prod.fst hstep)
  rw [hstep]
  rfl

theorem Ahead.suspend (h : Ahead G V since Λ due due due₁ Γ s env rest σ L)
    (hexec : σ.Executes s env rest (.error (.suspend v)) σ')
    (hlater : Later G V (σ.popped rest) G' W σ') :
  Stays V σ L
  := by
  have hplain := hexec.plain_error
  have hstep : σ.step = (some (.suspend (σ'.store.root v)), σ'.withStack (.stmt s env :: rest)) := by
    rw [hexec.step_error, Session.interrupt, hlater.stack]
    rfl
  have hgoing : Going G' W since (Λ.catching due s) due due σ.step.2 (σ.log L) := by
    refine h.books.plain hplain hstep (hlater.apart.withStack _) hlater.tags (h.alive.symm ▸ ?_)
    exact .stmt (h.top.rest.later hlater) h.top.ok (h.top.suits.mono hlater.tags hlater.view)
      h.top.owned (h.admits.stmt _ _ (Nat.lt_succ_self _) h.admits.here)
  refine hgoing.stays hlater.view fun value hvalue => ?_
  rw [hstep] at hvalue
  cases hvalue

theorem Ahead.throw (h : Ahead G V since Λ due due due₁ Γ s env rest σ L)
    (hexec : σ.Executes s env rest (.error e) σ') (hlater : Later G V (σ.popped rest) G' W σ')
    (he : e.Tame W) (hsuspend : ∀ v, e ≠ .suspend v) :
  Stays V σ L
  := by
  have hplain := hexec.plain_error
  have hbooks : Books G' L.entries L.left since due (rest.length + 1) := by
    refine { h.books with finals := fun e he => (h.books.finals e he).mono hlater.tags, gone := fun e he hc => ?_ }
    obtain ⟨hsettled, hfinal, hapart⟩ := h.books.gone e he hc
    exact ⟨hsettled, hfinal.mono hlater.tags, hapart⟩
  obtain ⟨_, hvalue, _, _, _, _, _, ht⟩ := thrown hexec hlater he hsuspend
    (h.top.rest.later hlater) hbooks rfl
  have hentered := hplain.toList_entered? L.activations
  exact ht.stays hvalue hlater.view (going_of_step ht.apart (hentered.symm ▸ ht.typed)
    (Session.log_entries hplain.opened?)
    (hbooks.log ht.turns G'.le_refl hplain.opened? hplain.hitsLimit))

theorem Going.execute (h : Going G V since Λ caught due σ L)
    (hstack : σ.stack = .stmt s env :: rest) (hlimit : ¬ σ.Limited) :
  Stays V σ L
  := by
  obtain ⟨_, _, _, ha⟩ := h.ahead hstack
  obtain ⟨result, σ₁, hrun, hled⟩ := led (h.apart.popped rest) ha.top ha.admits
  have hexec : σ.Executes s env rest result σ₁ := ⟨hstack, hlimit, hrun⟩
  cases hled with
  | proceed hlater hon htyped hlive hcalled hbegins =>
    exact ha.proceed hexec hlater hon htyped hlive hcalled hbegins
  | invoke hs hf hdue hrest hcaught hbody =>
    subst hs
    subst hdue
    exact ha.invoke hexec hf hrest hcaught hbody
  | opening hlater hs hopening =>
    subst hs
    exact ha.opening hexec hlater hopening
  | @interrupt e _ _ _ hlater he hdue =>
    subst hdue
    cases e with
    | suspend => exact ha.suspend hexec hlater
    | throw | fault => exact ha.throw hexec hlater he nofun

end Ahead

/-! ### Steps into an attempt -/

section Trying

variable {block attempt : Stmt} {Γ : Typing}

theorem Trying.base_le (h : Trying G V since Λ due f v block attempt env Γ rest entries σ L) :
  ∀ a ∈ L.activations, a.base.length ≤ rest.length
  := fun a ha => (h.opening.rest.base_suffix a ha).length_le

theorem Trying.open (h : Trying G V since Λ due f v block attempt env Γ rest entries σ L)
    (hstack : σ.stack = .stmt (.seq [.createProc [] block f, attempt, .call f]) env :: rest)
    (hlimit : ¬ σ.Limited) :
  Stays V σ L
  := by
  obtain ⟨_, _, body, name, handler, -, hseq, -⟩ := Stmt.isTry_iff.mp h.opening.isTry
  cases hseq
  have hexec : σ.Executes _ env rest (.ok (.enterAll _ env)) (σ.popped rest) := ⟨hstack, hlimit, rfl⟩
  have hstep : σ.step = (none, (σ.popped rest).withStack (.stmt (.createProc [] block f) env ::
      .stmt (.attempt body name handler) env :: .stmt (.call f) env :: rest)) :=
    hexec.step_ok
  have hheight : σ.step.2.height = rest.length + 3 := by
    rw [hstep]
    rfl
  have hplain : σ.Plain := by
    refine ⟨hexec.hitsLimit, hexec.entered?_ok, hexec.opened?_ok, ?_⟩
    rw [Session.created?, hexec.executes?]
  have hthrows : σ.throws = false := by
    rw [Session.throws, hexec.executes?]
  have hlog : σ.log L = L := by
    refine Session.log_self hplain hthrows ?_ ?_
    · rw [h.entered, hheight]
      refine forall_mem_cons.mpr ⟨by simp, fun e he => ?_⟩
      have := h.books.heights e he
      omega
    · intro a ha
      have := h.base_le a ha
      omega
  have htrying : Trying G V since Λ due f v block (.attempt body name handler) env Γ rest entries
      σ.step.2 (σ.log L) := by
    rw [hlog, hstep]
    exact { h with apart := (h.apart.popped rest).withStack _ }
  refine (Kept.creating ?_ htrying).stays V.le_refl (congrArg Prod.fst hstep)
  rw [hstep]
  rfl

theorem Books.enter (h : Books G entries left since due (n + 1)) (hG : G ≤ G')
    (hv : G'.IsFinal v) (hfresh : ∀ w r, G.vars w = some r → w < v) :
  Books G' ({ var := v, height := n, created := true } :: entries) left
    (fun u => if u = v then none else since u) (v :: due) (n + 2)
  := by
  have hless {w : VarId} (hw : G.IsFinal w) : w < v := by
    obtain ⟨r, hr, -⟩ := hw
    exact hfresh w r hr
  have hne {e : Entry} (he : e ∈ entries) : e.var ≠ v := Nat.ne_of_lt (hless (h.finals e he))
  refine ⟨pairwise_cons.mpr ⟨forall_mem_map.mpr fun e he => hless (h.finals e he), h.order⟩,
    pairwise_cons.mpr ⟨forall_mem_map.mpr fun e he => Nat.le_of_lt_succ (h.heights e he), h.nested⟩,
    forall_mem_cons.mpr ⟨by simp, ?_⟩, forall_mem_cons.mpr ⟨hv, fun e he => (h.finals e he).mono hG⟩,
    forall_mem_cons.mpr ⟨by simp, ?_⟩, forall_mem_cons.mpr ⟨⟨rfl, ?_⟩, ?_⟩, ?_⟩
  · exact fun e he => Nat.lt_succ_of_lt (h.heights e he)
  · intro e he
    simpa [hne he] using h.pending e he
  · rw [if_pos rfl]
    exact Nat.le_refl 0
  · intro e he
    rw [if_neg (hne he)]
    exact h.count e he
  · intro e he hc
    obtain ⟨hsettled, hfinal, hapart⟩ := h.gone e he hc
    exact ⟨hsettled, hfinal.mono hG, forall_mem_cons.mpr ⟨Nat.ne_of_gt (hless hfinal), hapart⟩⟩

theorem Opening.entered {store : Store} (h : Opening G V (Noted (entries.map Entry.place) since) acts
      store rest Λ due f v block attempt env Γ)
    (hbooks : Books G entries left since due (rest.length + 1)) (hG : G ≤ G')
    (hrole : G'.vars v = some ⟨some v, due, Λ⟩) :
  Typed G' V (Noted ((v, rest.length) :: entries.map Entry.place) fun u => if u = v then none else since u) acts
    (.stmt attempt env :: .stmt (.call f) env :: rest) (Λ.catching (v :: due) attempt) due (v :: due)
  := by
  have hless {w : VarId} {n : Nat} (hw : (w, n) ∈ entries.map Entry.place) :
      w < v ∧ n ≤ rest.length := by
    obtain ⟨e, he, hplace⟩ := mem_map.mp hw
    cases hplace
    obtain ⟨r, hr, -⟩ := hbooks.finals e he
    exact ⟨h.fresh e.var r hr, Nat.le_of_lt_succ (hbooks.heights e he)⟩
  have hnew (n : Nat) : (v, n) ∉ entries.map Entry.place :=
    fun hv => Nat.lt_irrefl v (hless hv).1
  have hsince : ∀ u ≠ v, (if u = v then none else since u) = since u := fun u hu => if_neg hu
  have hrest := h.rest.mono hG V.le_refl fun height hle _ _ hd => hd.enter hle hnew hsince
  have hdue (height : Nat) (hheight : rest.length < height) :
      Noted ((v, rest.length) :: entries.map Entry.place) (fun u => if u = v then none else since u)
        height .stmt (v :: due) := by
    refine ⟨⟨pairwise_cons.mpr ⟨?_, h.rest.listed.2.order⟩, ?_⟩, ?_, (by simp), (by simp)⟩
    · intro w hw
      obtain ⟨n, hn⟩ := h.rest.listed.2.entered w hw
      exact (hless hn).1
    · refine forall_mem_cons.mpr ⟨⟨_, mem_cons_self ..⟩, fun w hw => ?_⟩
      exact (h.rest.listed.2.entered w hw).imp fun _ => mem_cons_of_mem _
    · intro w n hw hn
      rcases mem_cons.mp hw with heq | hw
      · cases heq
        exact absurd hn (Nat.not_le.mpr hheight)
      · exact absurd (Nat.le_trans hn (hless hw).2) (Nat.not_le.mpr hheight)
  have hrole' : (Γ.set [f] (.special ⟨some v, due, Λ⟩)) f = .special ⟨some v, due, Λ⟩ :=
    set_of_mem (mem_singleton_self f)
  have hcallSuits : Suits G' V (Γ.set [f] (.special ⟨some v, due, Λ⟩)) env (Stmt.call f).occurrences := by
    intro x hx
    obtain rfl : x = f := by
      simpa [Stmt.call, Stmt.occurrences, Operand.idents, Kernel.operandIdents] using hx
    rw [hrole']
    exact ⟨v, h.lookup, hrole⟩
  have hlast := hrest.stmt (ok_call hrole') hcallSuits (fun _ h => by cases h) (hdue _ (Nat.lt_succ_self _))
  refine hlast.stmt h.attemptOk ?_ h.owned (hdue _ (Nat.lt_succ_of_lt (Nat.lt_succ_self _)))
  intro x hx
  by_cases hxf : x = f
  · subst hxf
    rw [hrole']
    exact ⟨v, h.lookup, hrole⟩
  · rw [set_of_not_mem (by simpa using hxf)]
    exact (h.suits x (mem_append_right _ hx) hxf).mono hG V.le_refl

section

variable (h : Trying G V since Λ due f v block attempt env Γ rest entries σ L)

include h

theorem Trying.created (hexec : σ.Executes (.createProc [] block f) env
      (.stmt attempt env :: .stmt (.call f) env :: rest) (.ok .rest) σ')
    (hlater : Later G V (σ.popped (.stmt attempt env :: .stmt (.call f) env :: rest)) G' V σ')
    (hrole : G'.vars v = some ⟨some v, due, Λ⟩) :
  Stays V σ L
  := by
  have hstep : σ.step = (none, σ'.withStack (.stmt attempt env :: .stmt (.call f) env :: rest)) := by
    rw [hexec.step_ok, Session.proceed, hlater.stack]
    rfl
  have hheight : σ.step.2.height = rest.length + 2 := by
    rw [hstep]
    rfl
  have hentered : σ.entered? = none := hexec.entered?_ok
  have hcalled : σ.called? = none := by
    rw [Session.called?, hentered]
    rfl
  have hthrows : σ.throws = false := by
    rw [Session.throws, hexec.executes?]
  have hcreated : σ.created? = some v := by
    rw [Session.created?, hexec.executes?]
    exact h.opening.lookup
  have hopened : σ.opened? = none := hexec.opened?_ok
  have hlog : σ.log L =
      { activations := L.activations
        entries := { var := v, height := rest.length, created := true } :: entries
        left := L.left } := by
    have hfirst : σ.note L.activations { var := v, height := rest.length } entries =
        { var := v, height := rest.length, created := true } := by
      simp [Session.note, Session.countCall, hcalled, hcreated, Session.escapes, hthrows]
    have hnotes := Session.noteAll_self hcalled hthrows L.activations fun e he => .inl (h.books.count e he).1
    have hlow : entries.filter (rest.length + 2 ≤ ·.height) = [] := by
      refine filter_eq_nil_iff.mpr fun e he => ?_
      have := h.books.heights e he
      rw [decide_eq_true_eq]
      omega
    have hhigh : entries.filter (·.height < rest.length + 2) = entries :=
      filter_eq_self.mpr fun e he => decide_eq_true (Nat.lt_succ_of_lt (h.books.heights e he))
    have hlive : live (rest.length + 2) L.activations = L.activations :=
      filter_eq_self.mpr fun a ha => decide_eq_true (by have := h.base_le a ha; omega)
    simp [Session.log, hentered, hopened, h.entered, Session.noteAll, hfirst, hnotes,
      hheight, hlow, hhigh, hlive, Session.countCall_self hcalled]
  have hgoing : Going G' V (fun u => if u = v then none else since u) (Λ.catching (v :: due) attempt)
      due (v :: due) σ.step.2 (σ.log L) := by
    rw [hlog, hstep]
    refine ⟨hlater.apart.withStack _, h.opening.entered h.books hlater.tags hrole,
      h.books.enter hlater.tags ⟨_, hrole, rfl⟩ h.opening.fresh, filter_eq_self.mpr fun a ha => ?_⟩
    exact decide_eq_true (Nat.lt_succ_of_le (Nat.le_succ_of_le (h.base_le a ha)))
  exact (Kept.going hgoing).stays V.le_refl (congrArg Prod.fst hstep)

theorem Trying.failed (hexec : σ.Executes (.createProc [] block f) env
      (.stmt attempt env :: .stmt (.call f) env :: rest) (.error (.fault (.identNotFound x)))
      (σ.popped (.stmt attempt env :: .stmt (.call f) env :: rest))) :
  Stays V σ L
  := by
  have hplain := hexec.plain_error
  have hlater := (h.apart.popped (.stmt attempt env :: .stmt (.call f) env :: rest)).later_self
  obtain ⟨_, hvalue, W, since', _, _, due', ht⟩ := thrown hexec hlater
    (hlater.apart.names x) nofun h.opening.rest h.books rfl
  have hentries : (σ.log L).entries = (σ.noteAll L.activations entries).filter (·.height < σ.step.2.height) := by
    rw [Session.log_entries hplain.opened?, h.entered]
    exact filter_cons_of_neg (by simpa [Session.note, Session.countCall] using ht.height)
  have hleft : (σ.log L).left = σ.note L.activations { var := v, height := rest.length } entries ::
        ((σ.noteAll L.activations entries).filter (σ.step.2.height ≤ ·.height) ++ L.left.map σ.countCall) := by
    rw [Session.log_left hplain.opened? hplain.hitsLimit, h.entered, Session.noteAll, filter_cons_of_pos]
    · rfl
    · simpa [Session.note, Session.countCall] using ht.height
  have hbooks : Books G (σ.log L).entries (σ.log L).left since' due' σ.step.2.height := by
    rw [hentries, hleft]
    have hbooks := h.books.note ht.turns G.le_refl
    refine { hbooks with gone := forall_mem_cons.mpr ⟨fun hc => ?_, hbooks.gone⟩ }
    simp [Session.note, hplain.created?] at hc
  exact ht.stays hvalue V.le_refl (going_of_step ht.apart
    ((hplain.toList_entered? L.activations).symm ▸ ht.typed) hentries hbooks)

theorem Trying.creates (stack : Stack) :
  ∃ result σ', (Exec.stmt env (.createProc [] block f)).run (σ.popped stack) = (result, σ') ∧ ((result = .ok .rest ∧
        ∃ G', Later G V (σ.popped stack) G' V σ' ∧ G'.vars v = some ⟨some v, due, Λ⟩) ∨
      ∃ x, result = .error (.fault (.identNotFound x)) ∧ σ' = σ.popped stack)
  := by
  have hnew : G.vars v = none := by
    cases hv : G.vars v with
    | none => rfl
    | some r => exact absurd (h.opening.fresh v r hv) (Nat.lt_irrefl v)
  have hsuits : Suits G V (Γ.set [f] .absent) env block.occurrences := by
    intro x hx
    by_cases hxf : x = f
    · rw [set_of_mem (by simpa using hxf)]
      trivial
    · rw [set_of_not_mem (by simpa using hxf)]
      exact h.opening.suits x (mem_append_left _ hx) hxf
  exact (h.apart.popped stack).createFinal h.opening.lookup h.opening.slot
    h.opening.view hnew rfl h.opening.finalOk h.opening.catches hsuits

theorem Trying.create (hstack : σ.stack =
      .stmt (.createProc [] block f) env :: .stmt attempt env :: .stmt (.call f) env :: rest)
    (hlimit : ¬ σ.Limited) :
  Stays V σ L
  := by
  obtain ⟨result, σ', hrun, hresult⟩ := h.creates _
  have hexec : σ.Executes _ env _ result σ' := ⟨hstack, hlimit, hrun⟩
  rcases hresult with ⟨rfl, _, hlater, hrole⟩ | ⟨x, rfl, rfl⟩
  · exact h.created hexec hlater hrole
  · exact h.failed hexec

end

end Trying

/-- A step keeps the discipline, and the ledger right. -/
theorem Kept.step (h : Kept V σ L) :
  Stays V σ L
  := by
  cases h with
  | going h =>
    cases hstack : σ.stack with
    | nil => exact h.done hstack
    | cons frame =>
      cases frame with
      | handler => exact h.leave hstack
      | stmt =>
        by_cases hlimit : σ.Limited
        · exact stays_limit h.apart h.books hstack hlimit
        · exact h.execute hstack hlimit
  | opened hstack h =>
    by_cases hlimit : σ.Limited
    · exact stays_limit h.apart h.books hstack hlimit
    · exact h.open hstack hlimit
  | creating hstack h =>
    by_cases hlimit : σ.Limited
    · exact stays_limit h.apart h.books hstack hlimit
    · exact h.create hstack hlimit

end Control

end ActorLang
