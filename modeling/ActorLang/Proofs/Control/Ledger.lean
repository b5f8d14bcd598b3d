import ActorLang.Proofs.Control.Stacks

/-!
# The ledger of a run

The ledger of a run notes, beside the machine, which procedures are being executed, and which
attempts with a final part have been entered.  Of every entry it counts how often its final part has
been invoked.  A throw out of a final part that is caught inside the attempt brings control back;
the ledger counts these escapes, too.
-/

namespace ActorLang

open Kernel (Ident Operand Stmt)
open List

/-- An attempt with a final part that has been entered. -/
structure Entry where
  var : VarId
  height : Nat
  /-- Whether the procedure of its final part has been created, which comes first. -/
  created : Bool := false
  invoked : Nat := 0
  /-- How often a throw out of its final part, or out of that of an attempt around it, has been
  caught inside. -/
  escapes : Nat := 0

/-- The variable of an entry, and its height. -/
def Entry.place (e : Entry) : VarId × Nat := (e.var, e.height)

structure Ledger where
  activations : List Activation := []
  /-- The attempts that have been entered and not been left, innermost first. -/
  entries : List Entry := []
  left : List Entry := []

/-- What is left of the ledger on a stack of this height. -/
def Ledger.cut (L : Ledger) (height : Nat) : Ledger :=
  { L with
    activations := live height L.activations
    entries := L.entries.filter (·.height < height) }

/-- The variable that an operand names. -/
def Kernel.Operand.var? (env : Env) : Operand → Option VarId
  | .ident name => env.lookup name
  | .lit _ => none

/-- The activation that an application leads to, if it enters a procedure. -/
def entering (rest : Stack) (env : Env) : Stmt → Next → Option Activation
  | .apply proc _, .enter body _ => some ⟨rest, body, proc.var? env⟩
  | .selectApply .., .enter body _ => some ⟨rest, body, none⟩
  | _, _ => none

/-- The entry that a statement leads to, if it opens an attempt with a final part. -/
def beginning (rest : Stack) : Stmt → Next → Option Entry
  | .scope [f] body, .enter _ env =>
    if Stmt.isTry [f] body then
      (env.lookup f).map fun v => { var := v, height := rest.length }
    else none
  | _, _ => none

namespace Session

def height (σ : Session) : Nat := σ.stack.length

/-- The next step ends the run because it has executed as many statements as it may. -/
def hitsLimit (σ : Session) : Bool :=
  match σ.stack with
  | .stmt _ _ :: _ => σ.Limited
  | _ => false

/-- The statement that the next step executes, its environment, what is below it on the stack, and
what comes of it. -/
def executes? (σ : Session) : Option (Stmt × Env × Stack × Except Interrupt Next) :=
  match σ.stack with
  | .stmt s env :: rest =>
    if σ.Limited then none else some (s, env, rest, ((Exec.stmt env s).run (σ.popped rest)).1)
  | _ => none

/-- The procedure that the next step enters. -/
def entered? (σ : Session) : Option Activation :=
  match σ.executes? with
  | some (s, env, rest, .ok next) => entering rest env s next
  | _ => none

/-- The variable by which the next step calls a procedure. -/
def called? (σ : Session) : Option VarId := σ.entered?.bind (·.callee)

/-- The attempt with a final part that the next step enters. -/
def opened? (σ : Session) : Option Entry :=
  match σ.executes? with
  | some (s, _, rest, .ok next) => beginning rest s next
  | _ => none

/-- The variable of the procedure that the next step creates. -/
def created? (σ : Session) : Option VarId :=
  match σ.executes? with
  | some (.createProc _ _ target, env, _, .ok _) => env.lookup target
  | _ => none

def throws (σ : Session) : Bool :=
  match σ.executes? with
  | some (_, _, _, .error (.throw _)) | some (_, _, _, .error (.fault _)) => true
  | _ => false

/-- The next step throws out of the final part of the first entry, or of another one around it, and
the throw is caught inside the first one. -/
def escapes (σ : Session) (acts : List Activation) (e : Entry) (outer : List Entry) : Bool :=
  σ.throws && e.height < σ.step.2.height && acts.any fun a => σ.step.2.height ≤ a.base.length &&
      (e :: outer).any fun e' => a.callee = some e'.var

/-- The entry with another invocation, if the next step is one. -/
def countCall (σ : Session) (e : Entry) : Entry :=
  { e with invoked := e.invoked + if σ.called? = some e.var then 1 else 0 }

def note (σ : Session) (acts : List Activation) (e : Entry) (outer : List Entry) : Entry :=
  { σ.countCall e with
    created := e.created || σ.created? = some e.var
    escapes := e.escapes + if σ.escapes acts e outer then 1 else 0 }

def noteAll (σ : Session) (acts : List Activation) : List Entry → List Entry
  | [] => []
  | e :: outer => σ.note acts e outer :: σ.noteAll acts outer

def log (σ : Session) (L : Ledger) : Ledger :=
  let entries := σ.opened?.toList ++ σ.noteAll L.activations L.entries
  let height := σ.step.2.height
  { activations := live height (σ.entered?.toList ++ L.activations)
    entries := entries.filter (·.height < height)
    left := (if σ.hitsLimit then [] else entries.filter (height ≤ ·.height)) ++ L.left.map σ.countCall }

/-! ### What a step adds to the ledger -/

section

variable {σ σ' : Session} {s : Stmt} {env : Env} {rest : Stack} {result : Except Interrupt Next}
  {next : Next} {e : Interrupt} {L : Ledger} {acts : List Activation} {entries : List Entry} {n : Nat}

theorem Executes.executes? (h : σ.Executes s env rest result σ') :
  σ.executes? = some (s, env, rest, result)
  := by
  simp only [Session.executes?, h.stack, if_neg h.unlimited, h.run]

theorem Executes.hitsLimit (h : σ.Executes s env rest result σ') :
  σ.hitsLimit = false
  := by
  simp only [Session.hitsLimit, h.stack, h.unlimited, decide_false]

theorem Executes.entered?_ok (h : σ.Executes s env rest (.ok next) σ') :
  σ.entered? = entering rest env s next
  := by
  rw [entered?, h.executes?]

theorem Executes.opened?_ok (h : σ.Executes s env rest (.ok next) σ') :
  σ.opened? = beginning rest s next
  := by
  rw [opened?, h.executes?]

/-- A step with nothing to note in the ledger but what becomes of the stack. -/
structure Plain (σ : Session) : Prop where
  hitsLimit : σ.hitsLimit = false
  entered? : σ.entered? = none
  opened? : σ.opened? = none
  created? : σ.created? = none

theorem Executes.plain_error (h : σ.Executes s env rest (.error e) σ') :
  σ.Plain where
  hitsLimit := h.hitsLimit
  entered? := by rw [Session.entered?, h.executes?]
  opened? := by rw [Session.opened?, h.executes?]
  created? := by
    rw [Session.created?, h.executes?]
    cases s <;> rfl

theorem Executes.throws (h : σ.Executes s env rest (.error e) σ') (he : ∀ v, e ≠ .suspend v) :
  σ.throws = true
  := by
  rw [Session.throws, h.executes?]
  cases e with
  | suspend v => exact absurd rfl (he v)
  | throw | fault => rfl

theorem plain_of_not_stmt (h : ∀ s env rest, σ.stack ≠ .stmt s env :: rest) :
  σ.Plain
  := by
  have hnone : σ.executes? = none := by
    rw [executes?]
    split
    next hstack => exact absurd hstack (h _ _ _)
    next => rfl
  refine ⟨?_, ?_, ?_, ?_⟩
  · rw [hitsLimit]
    split
    next hstack => exact absurd hstack (h _ _ _)
    next => rfl
  · rw [entered?, hnone]
  · rw [opened?, hnone]
  · rw [created?, hnone]

theorem Plain.called? (h : σ.Plain) :
  σ.called? = none
  := by
  rw [Session.called?, h.entered?]
  rfl

theorem Plain.toList_entered? (h : σ.Plain) (acts : List Activation) :
  σ.entered?.toList ++ acts = acts
  := by
  rw [h.entered?]
  rfl

theorem mem_noteAll {e' : Entry} (h : e' ∈ σ.noteAll acts entries) :
  ∃ inner e outer, entries = inner ++ e :: outer ∧ e' = σ.note acts e outer
  := by
  induction entries with
  | nil => cases h
  | cons e entries ih =>
    rcases mem_cons.mp h with rfl | h
    · exact ⟨[], e, entries, rfl, rfl⟩
    · obtain ⟨inner, e₁, outer, rfl, rfl⟩ := ih h
      exact ⟨e :: inner, e₁, outer, rfl, rfl⟩

theorem exists_mem_noteAll {e : Entry} (h : e ∈ entries) :
  ∃ outer, σ.note acts e outer ∈ σ.noteAll acts entries
  := by
  induction entries with
  | nil => cases h
  | cons e' entries ih =>
    rcases mem_cons.mp h with rfl | h
    · exact ⟨entries, mem_cons_self ..⟩
    · obtain ⟨outer, hmem⟩ := ih h
      exact ⟨outer, mem_cons_of_mem _ hmem⟩

theorem map_noteAll {α : Type} (f : Entry → α) (hf : ∀ e outer, f (σ.note acts e outer) = f e) (entries : List Entry) :
  (σ.noteAll acts entries).map f = entries.map f
  := by
  induction entries with
  | nil => rfl
  | cons e _ ih => rw [noteAll, map_cons, hf, ih, map_cons]

theorem noteAll_self (hcalled : σ.called? = none) (hthrows : σ.throws = false)
    (acts : List Activation) (hcreated : ∀ e ∈ entries, e.created = true ∨ σ.created? = none) :
  σ.noteAll acts entries = entries
  := by
  induction entries with
  | nil => rfl
  | cons e entries ih =>
    obtain ⟨he, hentries⟩ := forall_mem_cons.mp hcreated
    have hnote : σ.note acts e entries = e := by
      obtain ⟨_, _, _, _, escapes⟩ := e
      rcases he with rfl | he
      · simp [note, countCall, hcalled, Session.escapes, hthrows]
      · simp [note, countCall, hcalled, Session.escapes, hthrows, he]
    rw [noteAll, ih hentries, hnote]

theorem countCall_self (hcalled : σ.called? = none) (left : List Entry) :
  left.map σ.countCall = left
  := by
  refine (map_congr_left fun e _ => ?_).trans (map_id _)
  rw [countCall, hcalled]
  rfl

theorem log_self (hplain : σ.Plain) (hthrows : σ.throws = false)
    (hentries : ∀ e ∈ L.entries, e.height < σ.step.2.height)
    (hacts : ∀ a ∈ L.activations, a.base.length < σ.step.2.height) :
  σ.log L = L
  := by
  have hlow : L.entries.filter (σ.step.2.height ≤ ·.height) = [] := by
    refine filter_eq_nil_iff.mpr fun e he => ?_
    simpa using hentries e he
  have hhigh : L.entries.filter (·.height < σ.step.2.height) = L.entries :=
    filter_eq_self.mpr fun e he => decide_eq_true (hentries e he)
  have hlive : live σ.step.2.height L.activations = L.activations :=
    filter_eq_self.mpr fun a ha => decide_eq_true (hacts a ha)
  have hcreated : ∀ e ∈ L.entries, e.created = true ∨ σ.created? = none :=
    fun _ _ => .inr hplain.created?
  have hnotes := noteAll_self hplain.called? hthrows L.activations hcreated
  simp [log, hplain.entered?, hplain.opened?, hnotes, hlow, hhigh, hlive,
    countCall_self hplain.called?]

theorem log_entries (h : σ.opened? = none) :
  (σ.log L).entries = (σ.noteAll L.activations L.entries).filter (·.height < σ.step.2.height)
  := by
  rw [log, h]
  rfl

theorem log_left (h : σ.opened? = none) (hlimit : σ.hitsLimit = false) :
  (σ.log L).left = (σ.noteAll L.activations L.entries).filter (σ.step.2.height ≤ ·.height) ++ L.left.map σ.countCall
  := by
  rw [log, h, hlimit]
  rfl

theorem place_noteAll (acts : List Activation) (entries : List Entry) :
  ((σ.noteAll acts entries).filter (·.height < n)).map Entry.place = (entries.map Entry.place).filter (·.2 < n)
  := by
  rw [← map_noteAll Entry.place (fun _ _ => rfl) entries, filter_map]
  rfl

end

end Session

end ActorLang
