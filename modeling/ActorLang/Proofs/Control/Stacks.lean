import ActorLang.Proofs.Control.Discipline
import ActorLang.Proofs.Machine.Steps

/-!
# Stacks that keep the discipline

While a program runs, the variables and closures that its constructs make for themselves have the
roles that the discipline gives to their names, and values never lead to them.  `Typed` is the
discipline for a stack: it follows what is due from frame to frame, which catches can be reached,
and the activations, that is, the procedures that are being executed.
-/

namespace ActorLang

open Kernel (Ident Stmt)
open List

/-- A procedure that is being executed: what was on the stack when it was entered, its body, and
the variable that it was called by, if any. -/
structure Activation where
  base : Stack
  body : Stmt
  callee : Option VarId

/-- The activations in which there is something left to do, on a stack of this height. -/
def live (height : Nat) (acts : List Activation) : List Activation :=
  acts.filter (·.base.length < height)

theorem live_append {height : Nat} {dropped : List Activation}
    (h : ∀ a ∈ dropped, height ≤ a.base.length) (acts : List Activation) :
  live height (dropped ++ acts) = live height acts
  := by
  have hdropped : live height dropped = [] := by
    refine filter_eq_nil_iff.mpr fun a ha => ?_
    simpa using h a ha
  rw [live, filter_append]
  exact congrArg (· ++ live height acts) hdropped

/-- What is below the jump that comes next, if nothing but calls come before it. -/
def Stack.jump? : Stack → Option Stack
  | .stmt (.jumpThrow _) _ :: below => some below
  | .stmt (.apply (.ident _) []) _ :: rest => jump? rest
  | _ => none

/-- The nearest handler is below this height, so what is thrown here goes on there. -/
def Bare (height : Nat) (stack : Stack) : Prop :=
  ∀ found ∈ Machine.handlerBelow stack, found.2.2.2.length < height

instance (height : Nat) (stack : Stack) : Decidable (Bare height stack) :=
  inferInstanceAs (Decidable (∀ found ∈ Machine.handlerBelow stack, found.2.2.2.length < height))

/-- A jump is on its way from above this height: calls may come before it, but nothing else. -/
def Leaving (height : Nat) (stack : Stack) : Prop := ∃ below ∈ stack.jump?, height < below.length

instance (height : Nat) (stack : Stack) : Decidable (Leaving height stack) :=
  inferInstanceAs (Decidable (∃ below ∈ stack.jump?, height < below.length))

namespace Control

/-! ### Roles of variables -/

/-- The roles of variables and closures that belong to the constructs of a program. -/
structure Tags where
  vars : VarId → Option Role
  procs : ProcId → Option Role

/-- More is tagged. -/
structure Tags.Le (G G' : Tags) : Prop where
  vars : ∀ v r, G.vars v = some r → G'.vars v = some r
  procs : ∀ id r, G.procs id = some r → G'.procs id = some r

instance : LE Tags := ⟨Tags.Le⟩

theorem Tags.le_refl (G : Tags) :
  G ≤ G where
  vars _ _ := id
  procs _ _ := id

theorem Tags.le_trans {G G' G'' : Tags} (h : G ≤ G') (h' : G' ≤ G'') :
  G ≤ G'' where
  vars v r hv := h'.vars v r (h.vars v r hv)
  procs id r hid := h'.procs id r (h.procs id r hid)

/-- The variable belongs to a final part. -/
def Tags.IsFinal (G : Tags) (v : VarId) : Prop := ∃ r, G.vars v = some r ∧ r.final.isSome

theorem Tags.IsFinal.mono {G G' : Tags} {v : VarId} (h : G.IsFinal v) (hG : G ≤ G') :
  G'.IsFinal v
  := by
  obtain ⟨r, hr, hfinal⟩ := h
  exact ⟨r, hG.vars v r hr, hfinal⟩

/-- The variable, if there is one, is what a name of this kind stands for. -/
def Kind.Suits (G : Tags) (V : View) : Kind → Option VarId → Prop
  | special r, v? => ∃ v, v? = some v ∧ G.vars v = some r
  | absent, _ => True
  | plain, v? => ∀ v, v? = some v → V.vars v
  | data, v? => ∀ v, v? = some v → V.vars v

/-- Names stand for what they should in an environment. -/
def Suits (G : Tags) (V : View) (Γ : Typing) (env : Env) (names : List Ident) : Prop :=
  ∀ x ∈ names, (Γ x).Suits G V (env.lookup x)

section Suits

variable {G G' : Tags} {V W : View} {Γ Γ' : Typing} {env bindings : Env} {names needed : List Ident}

theorem Kind.Suits.mono {k : Kind} {v? : Option VarId} (h : k.Suits G V v?) (hG : G ≤ G') (hV : V ≤ W) :
  k.Suits G' W v?
  := by
  cases k with
  | plain | data => exact fun v hv => hV.vars v (h v hv)
  | absent => trivial
  | special r =>
    obtain ⟨v, hv, hr⟩ := h
    exact ⟨v, hv, hG.vars v r hr⟩

theorem Suits.mono (h : Suits G V Γ env names) (hG : G ≤ G') (hV : V ≤ W) :
  Suits G' W Γ env names
  := fun x hx => (h x hx).mono hG hV

theorem Suits.subset (h : Suits G V Γ env names) (hsub : needed ⊆ names) :
  Suits G V Γ env needed
  := fun x hx => h x (hsub hx)

theorem Suits.extend (h : Suits G V Γ env (needed.filter (!names.contains ·)))
    (hnames : ∀ x, x ∈ bindings.map (·.1) ↔ x ∈ names) (hΓ : ∀ x ∉ names, Γ' x = Γ x)
    (hbindings : ∀ b ∈ bindings, (Γ' b.1).Suits G V (some b.2)) :
  Suits G V Γ' (env.extend bindings) needed
  := by
  intro x hx
  by_cases hbound : x ∈ bindings.map (·.1)
  · obtain ⟨v, hv, hlookup⟩ := Env.lookup_extend_of_mem hbound
    rw [hlookup env]
    exact hbindings _ hv
  · rw [Env.lookup_extend_of_not_mem hbound]
    rw [hnames] at hbound
    rw [hΓ x hbound]
    exact h x (mem_filter_contains.mpr ⟨hx, hbound⟩)

theorem Suits.extend_plain (h : Suits G V Γ env (needed.filter (!names.contains ·)))
    (hnames : ∀ x, x ∈ bindings.map (·.1) ↔ x ∈ names) (hbindings : ∀ b ∈ bindings, V.vars b.2) :
  Suits G V (Γ.set names .plain) (env.extend bindings) needed
  := by
  refine h.extend hnames (fun x hx => set_of_not_mem hx) fun b hb => ?_
  rw [set_of_mem ((hnames b.1).mp (mem_map_of_mem hb))]
  rintro _ ⟨⟩
  exact hbindings b hb

theorem suits_of_sealed (hΓ : ∀ x r, Γ x ≠ .special r) (henv : ∀ b ∈ env, V.vars b.2) :
  Suits G V Γ env names
  := by
  intro x _
  have hview (v : VarId) (hv : env.lookup x = some v) : V.vars v := henv _ (Env.mem_of_lookup hv)
  cases hx : Γ x with
  | plain | data => exact hview
  | absent => trivial
  | special r => exact absurd hx (hΓ x r)

theorem Suits.sameVar (h : Suits G V Γ env names) (hΓ : Γ.Values names) (hnames : ∀ x, V.names x)
    (x : Ident) (hx : x ∈ names) :
  Exec.SameVar V env env x x
  := by
  have hview (h : ∀ v, env.lookup x = some v → V.vars v) : Exec.SameVar V env env x x := by
    cases hv : env.lookup x with
    | some v => exact .bound v hv hv (h v hv)
    | none => exact .missing (hnames x) hv hv
  have hsuits := h x hx
  have hvalue := hΓ x hx
  cases hk : Γ x with
  | plain | data => exact hview (by simpa [hk, Kind.Suits] using hsuits)
  | absent | special => simp [hk, Kind.IsValue] at hvalue

end Suits

/-! ### Stacks -/

/-- The catches belong to the innermost activation. -/
def Owned (acts : List Activation) (labels : List Nat) : Prop :=
  ∀ n ∈ labels, ∃ a, acts.head? = some a ∧ n ∈ a.body.catches

/-- The catch of the label is on top. -/
def OnTop (n : Nat) (stack : Stack) : Prop := ∃ env below, stack = .stmt (.jumpCatch n) env :: below

/-- What there is at a place of a stack: a frame, or where an activation begins. -/
inductive Mark where
  | stmt
  | handler
  | entered (a : Activation)

/-- A stack keeps the discipline: `Λ` are the labels that can be reached, `caught` is what the nearest
handler takes to be due, and `due` is due.  `P` holds of what is due at each frame and where an
activation begins, given the height. -/
inductive Typed (G : Tags) (V : View) (P : Nat → Mark → Due → Prop) :
    List Activation → Stack → (Λ : Labels) → (caught due : Due) → Prop where
  | nil : Typed G V P [] [] .none [] []
  | stmt {acts rest Λ caught due due' Γ s env} (hrest : Typed G V P acts rest Λ caught due')
      (hs : Ok s Γ Λ caught due due') (hsuits : Suits G V Γ env s.occurrences)
      (howned : Owned acts s.catches) (hP : P (rest.length + 1) .stmt due) :
      Typed G V P acts (.stmt s env :: rest) (Λ.catching due s) caught due
  | handler {acts rest Λ caught due Γ name s env} (hrest : Typed G V P acts rest Λ caught due)
      (hs : Ok s (Γ.set [name] .plain) Λ caught due due)
      (hsuits : Suits G V Γ env (s.occurrences.filter (! [name].contains ·)))
      (hcatches : s.catches = []) (hP : P (rest.length + 1) .handler due) :
      Typed G V P acts (.handler name s env :: rest) Λ due due
  | enter {acts a Λ Λ' caught due} (hrest : Typed G V P acts a.base Λ caught due) (hΛ : Λ' ≤ Λ)
      (hown : ∀ n ∈ a.body.catches, Λ' n = none ∨ OnTop n a.base)
      (hcaught : due = caught ∨ ∃ w, a.callee = some w ∧ w :: due <:+ caught)
      (hP : P a.base.length (.entered a) due) : Typed G V P (a :: acts) a.base Λ' due due

namespace Typed

variable {G G' : Tags} {V W : View} {P P' : Nat → Mark → Due → Prop} {acts : List Activation}
  {stack rest below : Stack} {Λ Λ₀ : Labels} {caught due due' : Due} {Γ : Typing} {s : Stmt}
  {env : Env} {n : Nat} {Q : Due → Prop}

section

variable (h : Typed G V P acts stack Λ caught due)

include h

theorem mono (hG : G ≤ G') (hV : V ≤ W)
    (hP : ∀ height ≤ stack.length, ∀ mark due, P height mark due → P' height mark due) :
  Typed G' W P' acts stack Λ caught due
  := by
  induction h with
  | nil => exact .nil
  | stmt _ hs hsuits howned hdue ih =>
    have hrest := ih fun height hle => hP height (Nat.le_succ_of_le hle)
    exact .stmt hrest hs (hsuits.mono hG hV) howned (hP _ (Nat.le_refl _) _ _ hdue)
  | handler _ hs hsuits hcatches hdue ih =>
    have hrest := ih fun height hle => hP height (Nat.le_succ_of_le hle)
    exact .handler hrest hs (hsuits.mono hG hV) hcatches (hP _ (Nat.le_refl _) _ _ hdue)
  | enter _ hΛ hown hcaught hdue ih =>
    exact .enter (ih hP) hΛ hown hcaught (hP _ (Nat.le_refl _) _ _ hdue)

theorem forall_due (hP : ∀ height ≤ stack.length, ∀ mark due, P height mark due → Q due) (hnil : Q []) :
  Q caught ∧ Q due
  := by
  induction h with
  | nil => exact ⟨hnil, hnil⟩
  | stmt _ _ _ _ hdue ih =>
    have hrest := ih fun height hle => hP height (Nat.le_succ_of_le hle)
    exact ⟨hrest.1, hP _ (Nat.le_refl _) _ _ hdue⟩
  | handler _ _ _ _ hdue ih =>
    have hrest := ih fun height hle => hP height (Nat.le_succ_of_le hle)
    exact ⟨hrest.2, hrest.2⟩
  | enter _ _ _ _ _ ih => exact ⟨(ih hP).2, (ih hP).2⟩

theorem base_suffix :
  ∀ a ∈ acts, a.base <:+ stack
  := by
  induction h with
  | nil => exact forall_mem_nil _
  | stmt _ _ _ _ _ ih | handler _ _ _ _ _ ih =>
    exact fun a ha => (ih a ha).trans (suffix_cons _ _)
  | enter _ _ _ _ _ ih => exact forall_mem_cons.mpr ⟨suffix_refl _, ih⟩

theorem entered :
  ∀ a ∈ acts, ∃ due, P a.base.length (.entered a) due
  := by
  induction h with
  | nil => exact forall_mem_nil _
  | stmt _ _ _ _ _ ih | handler _ _ _ _ _ ih => exact ih
  | enter _ _ _ _ hP ih => exact forall_mem_cons.mpr ⟨⟨_, hP⟩, ih⟩

/-! ### Statements that come on top -/

theorem relabel (htop : OnTop n stack) :
  Typed G V P acts stack (Λ.set n due) caught due
  := by
  induction h with
  | nil | handler =>
    obtain ⟨_, _, hstack⟩ := htop
    cases hstack
  | @stmt _ _ Λ _ due _ Γ s _ hrest hs hsuits howned hP =>
    obtain ⟨_, _, hstack⟩ := htop
    cases hstack
    have hset : (Labels.catching Λ due (.jumpCatch n)).set n due = Λ.catching due (.jumpCatch n) := by
      funext m
      simp only [Labels.catching, Labels.set]
      split <;> rfl
    rw [hset]
    exact .stmt hrest hs hsuits howned hP
  | @enter _ a Λ Λ' _ due _ hΛ hown hcaught hP ih =>
    refine .enter (ih htop) ?_ ?_ hcaught hP
    · intro m due hm
      rw [Labels.set] at hm ⊢
      split at hm
      next => rwa [if_pos ‹m = n›]
      next => rw [if_neg ‹m ≠ n›, hΛ m due hm]
    · intro m hm
      by_cases hmn : m = n
      · exact .inr (hmn ▸ htop)
      · rw [Labels.set, if_neg hmn]
        exact hown m hm

end

theorem push (h : Typed G V P acts rest Λ caught due') (hs : Ok s Γ Λ caught due due')
    (hsuits : Suits G V Γ env s.occurrences) (howned : Owned acts s.catches)
    (hP : P (rest.length + 1) .stmt due) :
  Typed G V P acts (rest.push s env) (Λ.catching due s) caught due
  := by
  fun_cases Stack.push rest s env with
  | case1 _ env' below =>
    obtain ⟨-, rfl⟩ := hs
    exact h.relabel ⟨env', below, rfl⟩
  | case2 | case3 => exact .stmt h hs hsuits howned hP

theorem pushAll {stmts : List Stmt} (h : Typed G V P acts rest Λ caught due')
    (hs : Chain stmts Γ caught Λ₀ due Λ due') (hsuits : Suits G V Γ env (Stmt.listOccurrences stmts))
    (howned : Owned acts (Stmt.listCatches stmts))
    (hP : ∀ height due, rest.length < height → Q due → P height .stmt due)
    (hsuffix : ∀ due due', Q due → due' <:+ due → Q due') (hcaught : Q caught) (hdue : Q due)
    (hdue' : Q due') :
  Typed G V P acts (stmts.foldr (fun s stack => stack.push s env) rest) Λ₀ caught due ∧
    rest.length ≤ (stmts.foldr (fun s stack => stack.push s env) rest).length
  := by
  induction stmts generalizing Λ₀ due with
  | nil =>
    obtain ⟨rfl, rfl⟩ := hs
    exact ⟨h, Nat.le_refl _⟩
  | cons s stmts ih =>
    obtain ⟨_, due₁, hs, hstmts, rfl, hmid⟩ := hs
    have hQ : Q due₁ := by
      rcases hmid with hmid | rfl | rfl
      · exact hsuffix _ _ hdue hmid
      · exact hcaught
      · exact hdue'
    obtain ⟨hrest, hlength⟩ := ih hstmts (hsuits.subset (subset_append_right _ _))
      (fun n hn => howned n (mem_append_right _ hn)) hQ
    rw [foldr_cons]
    refine ⟨hrest.push hs (hsuits.subset (subset_append_left _ _)) (fun n hn => howned n (mem_append_left _ hn)) ?_, ?_⟩
    · exact hP _ _ (Nat.lt_succ_of_le hlength) hdue
    · refine Nat.le_trans hlength ?_
      fun_cases Stack.push (stmts.foldr (fun s stack => stack.push s env) rest) s env
      · exact Nat.le_refl _
      · exact Nat.le_succ _
      · exact Nat.le_succ _

/-! ### Activations that have ended -/

/-- Activations in which there is nothing left to do can be left out. -/
theorem trim (h : Typed G V P acts stack Λ caught due) :
  ∃ Λ' caught', Typed G V P (live stack.length acts) stack Λ' caught' due
  := by
  have hlower {acts : List Activation} {rest : Stack} (frame : Frame)
      (hbase : ∀ a ∈ acts, a.base <:+ rest) : live (frame :: rest).length acts = acts := by
    refine filter_eq_self.mpr fun a ha => decide_eq_true ?_
    exact Nat.lt_succ_of_le (hbase a ha).length_le
  induction h with
  | nil => exact ⟨_, _, .nil⟩
  | stmt hrest hs hsuits howned hP =>
    rw [hlower _ hrest.base_suffix]
    exact ⟨_, _, .stmt hrest hs hsuits howned hP⟩
  | handler hrest hs hsuits hcatches hP =>
    rw [hlower _ hrest.base_suffix]
    exact ⟨_, _, .handler hrest hs hsuits hcatches hP⟩
  | @enter acts a _ _ _ _ _ _ _ _ _ ih =>
    have hdone : live a.base.length (a :: acts) = live a.base.length acts :=
      filter_cons_of_neg (by simp)
    rw [hdone]
    exact ih

theorem frame_cases {frame : Frame} (h : Typed G V P acts (frame :: rest) Λ caught due)
    (hlive : live (rest.length + 1) acts = acts) :
  (∃ s env Γ Λ' due', frame = .stmt s env ∧ Typed G V P acts rest Λ' caught due' ∧
    Ok s Γ Λ' caught due due' ∧ Suits G V Γ env s.occurrences ∧ Owned acts s.catches ∧
    Λ = Λ'.catching due s) ∨
  ∃ name s env caught', frame = .handler name s env ∧ Typed G V P acts rest Λ caught' due
  := by
  generalize hstack : frame :: rest = stack at h
  cases h with
  | nil => cases hstack
  | stmt hrest hs hsuits howned =>
    cases hstack
    exact .inl ⟨_, _, _, _, _, rfl, hrest, hs, hsuits, howned, rfl⟩
  | handler hrest =>
    cases hstack
    exact .inr ⟨_, _, _, _, rfl, hrest⟩
  | @enter _ a _ _ _ _ _ _ _ _ _ =>
    have ha := filter_eq_self.mp hlive a (mem_cons_self ..)
    rw [← hstack, decide_eq_true_eq] at ha
    exact absurd ha (Nat.lt_irrefl _)

theorem nil_cases (h : Typed G V P acts [] Λ caught due) (hlive : live 0 acts = acts) :
  acts = [] ∧ caught = [] ∧ due = []
  := by
  generalize hstack : [] = stack at h
  cases h with
  | nil => exact ⟨rfl, rfl, rfl⟩
  | stmt | handler => cases hstack
  | @enter _ a _ _ _ _ _ _ _ _ _ =>
    have ha := filter_eq_self.mp hlive a (mem_cons_self ..)
    exact absurd (of_decide_eq_true ha) (Nat.not_lt_zero _)

/-! ### Jumps -/

/-- The jump has unwound the stack to what is below, and ended only activations within the one that
the label belongs to. -/
structure Landed (n : Nat) (acts acts' : List Activation) (below : Stack) : Prop where
  dropped : ∃ dropped, acts = dropped ++ acts' ∧ ∀ a ∈ dropped, below.length ≤ a.base.length
  own : ∃ a, acts.find? (n ∈ ·.body.catches) = some a ∧
    (a.base <:+ below ∨ ∃ env below', a.base = .stmt (.jumpCatch n) env :: below' ∧ below' <:+ below)

/-- A jump to a label that can be reached finds its catch, with what is due there. -/
theorem jump (h : Typed G V P acts stack Λ caught due) (hn : Λ n = some due') :
  ∃ below acts' Λ' caught', stack.unwindTo n = some below ∧
    Typed G V P acts' below Λ' caught' due' ∧ Landed n acts acts' below
  := by
  induction h with
  | nil => cases hn
  | @stmt _ rest Λ _ due due₁ Γ s env hrest hs _ howned hP ih =>
    by_cases hcatch : s = .jumpCatch n
    · subst hcatch
      obtain rfl : due = due' := by simpa [Labels.catching, Labels.set] using hn
      obtain ⟨-, rfl⟩ := hs
      obtain ⟨a, ha, hcatches⟩ := howned n (mem_singleton_self n)
      obtain ⟨_, rfl⟩ := List.head?_eq_some_iff.mp ha
      refine ⟨rest, _, _, _, Stack.unwindTo_catch n env rest, hrest, ⟨[], rfl, by simp⟩, a, ?_, .inl ?_⟩
      · rw [List.find?_cons_of_pos (by simpa using hcatches)]
      · exact hrest.base_suffix a (mem_cons_self ..)
    · rw [Stack.unwindTo_cons, if_neg]
      case hnc =>
        rintro hlabel
        obtain ⟨_, hs⟩ := Frame.catch?_eq_some hlabel
        cases hs
        exact hcatch rfl
      apply ih
      cases s with
      | jumpCatch =>
        rw [Labels.catching, Labels.set, if_neg] at hn
        · exact hn
        · rintro rfl
          exact hcatch rfl
      | _ => exact hn
  | handler _ hs _ _ hP ih => exact ih hn
  | @enter _ a Λ Λ' _ _ _ hΛ hown _ _ ih =>
    obtain ⟨below, acts', Λ'', caught'', hunwind, hbelow, hlanded⟩ := ih (hΛ n due' hn)
    refine ⟨below, acts', Λ'', caught'', hunwind, hbelow, ?_, ?_⟩
    · obtain ⟨dropped, rfl, hdropped⟩ := hlanded.dropped
      have hle := (Stack.unwindTo_suffix hunwind).length_le
      exact ⟨a :: dropped, rfl, forall_mem_cons.mpr ⟨hle, hdropped⟩⟩
    · by_cases hcatches : n ∈ a.body.catches
      · refine ⟨a, List.find?_cons_of_pos (by simpa using hcatches), .inr ?_⟩
        rcases hown n hcatches with hnone | ⟨env, _, hbase⟩
        · cases hnone.symm.trans hn
        · rw [hbase, Stack.unwindTo_catch] at hunwind
          cases hunwind
          exact ⟨env, below, hbase, suffix_refl _⟩
      · rw [List.find?_cons_of_neg (by simpa using hcatches)]
        exact hlanded.own

/-! ### Throws -/

/-- What a throw finds: a handler, and the stack below it.  What is due for the handler, and was not
due at the throw, is due again because the throw has left a final part that was run after it. -/
structure Caught (G : Tags) (V : View) (P : Nat → Mark → Due → Prop) (acts : List Activation)
    (caught : Due) (name : Ident) (s : Stmt) (env : Env) (below : Stack) (acts' : List Activation)
    (Λ' : Labels) (caught' taken : Due) (Γ : Typing) : Prop where
  typed : Typed G V P acts' below Λ' caught' taken
  ok : Ok s (Γ.set [name] .plain) Λ' caught' taken taken
  suits : Suits G V Γ env (s.occurrences.filter (! [name].contains ·))
  catches : s.catches = []
  due : P (below.length + 1) .handler taken
  suffix : caught <:+ taken
  dropped : ∃ dropped, acts = dropped ++ acts' ∧ (∀ a ∈ dropped, below.length < a.base.length) ∧
    ∀ v ∈ taken, v ∉ caught → ∃ a ∈ dropped, ∃ w more, a.callee = some w ∧ w :: more <:+ taken ∧
      v ∉ more ∧ P a.base.length (.entered a) more

theorem throw {name : Ident} (h : Typed G V P acts stack Λ caught due)
    (hbelow : Machine.handlerBelow stack = some (name, s, env, below)) :
  ∃ acts' Λ' caught' taken Γ, Caught G V P acts caught name s env below acts' Λ' caught' taken Γ
  := by
  induction h with
  | nil => cases hbelow
  | stmt _ _ _ _ _ ih => exact ih hbelow
  | handler hrest hs hsuits hcatches hP =>
    cases hbelow
    exact ⟨_, _, _, _, _, hrest, hs, hsuits, hcatches, hP, suffix_refl _,
      [], rfl, forall_mem_nil _, fun v hv hnot => absurd hv hnot⟩
  | @enter _ a Λ₁ _ caught₁ due _ hΛ _ hcaught hP ih =>
    obtain ⟨acts', Λ', caught', taken, Γ, hc⟩ := ih hbelow
    obtain ⟨dropped, rfl, hheights, hagain⟩ := hc.dropped
    have hlt : below.length < a.base.length := (Machine.handlerBelow_suffix hbelow).length_le
    have hheights : ∀ b ∈ a :: dropped, below.length < b.base.length :=
      forall_mem_cons.mpr ⟨hlt, hheights⟩
    have hagain : ∀ v ∈ taken, v ∉ caught₁ → ∃ b ∈ a :: dropped, ∃ w more, b.callee = some w ∧
        w :: more <:+ taken ∧ v ∉ more ∧ P b.base.length (.entered b) more := by
      intro v hv hnot
      obtain ⟨b, hb, hmore⟩ := hagain v hv hnot
      exact ⟨b, mem_cons_of_mem _ hb, hmore⟩
    refine ⟨acts', Λ', caught', taken, Γ, { hc with suffix := ?_, dropped := ?_ }⟩
    · rcases hcaught with rfl | ⟨w, -, hw⟩
      · exact hc.suffix
      · exact ((suffix_cons _ _).trans hw).trans hc.suffix
    · refine ⟨a :: dropped, rfl, hheights, ?_⟩
      rcases hcaught with rfl | ⟨w, hcallee, hw⟩
      · exact hagain
      · -- the throw leaves a final part after which more is due
        intro v hv hnot
        by_cases hmem : v ∈ caught₁
        · exact ⟨a, mem_cons_self .., w, due, hcallee, hw.trans hc.suffix, hnot, hP⟩
        · exact hagain v hv hmem

theorem uncaught (h : Typed G V P acts stack Λ caught due) (hnone : Machine.handlerBelow stack = none) :
  caught = []
  := by
  induction h with
  | nil => rfl
  | stmt _ _ _ _ _ ih => exact ih hnone
  | handler => cases hnone
  | enter _ _ _ hcaught _ ih =>
    rcases hcaught with rfl | ⟨w, -, hw⟩
    · exact ih hnone
    · rw [ih hnone] at hw
      cases suffix_nil.mp hw

/-- If less is due than the nearest handler takes to be due, then a jump is on its way. -/
theorem jump?_eq (h : Typed G V P acts stack Λ caught due) (hless : ¬ caught <:+ due) :
  ∃ below, stack.jump? = some below ∧ Machine.handlerBelow below = Machine.handlerBelow stack
  := by
  induction h with
  | nil | handler | enter => exact absurd (suffix_refl _) hless
  | @stmt _ rest _ _ _ _ _ _ _ _ hs _ _ _ ih =>
    rcases hs.behind hless with ⟨n, rfl⟩ | ⟨f, w, rfl, rfl, hdue⟩
    · exact ⟨rest, rfl, rfl⟩
    · exact ih fun hsuffix => Nat.not_succ_le_self _ (hdue.trans hsuffix).length_le

end Typed

end Control

end ActorLang
