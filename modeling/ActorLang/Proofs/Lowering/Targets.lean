import ActorLang.Proofs.Control.Clauses
import ActorLang.Proofs.Machine.Twins

/-!
# Lowering against two targets

A phrase may be lowered against one target or another.  The two computations take the same numbers, use the same
frames and fail alike.  Their statements are twins, as long as nothing around a place that delivers the value binds
one of the targets.
-/

namespace ActorLang

open Kernel (Ident Operand Stmt resultIdent messageIdent)
open List
open Exec (operandTwin_refl operandTwins_refl labelTwin_refl fieldTwins_refl congruent_refl)

variable {N N' : Pairing} {names : List Ident} {s s' : Stmt} {stmts stmts' : List Stmt}

/-! ### Pairings -/

theorem Pairing.under_self {x : Ident} :
  N.under names x x ↔ x ∈ names ∨ N x x
  := by
  simp only [Pairing.under]
  tauto

theorem Pairing.refl_under (hN : ∀ x, N x x) (names : List Ident) :
  ∀ x, N.under names x x
  := fun x => Pairing.under_self.mpr (.inr (hN x))

theorem Twin.refl (hN : ∀ x, N x x) (s : Stmt) :
  Twin N s s
  := by
  induction s using Stmt.size_induction generalizing N with | smaller s ih
  have hop := operandTwin_refl hN
  have hunder := Pairing.refl_under hN
  cases s with
  | scope names body => exact .scope (ih body (by simp) (hunder names))
  | seq =>
    refine twin_seq (forall₂_same.mpr fun s hs => ih s ?_ hN)
    have := List.sizeOf_lt_of_mem hs
    simp
    omega
  | ifElse cond yes no => exact .ifElse (hop cond) (ih yes (by simp; omega) hN) (ih no (by simp) hN)
  | cases arg _ yes no =>
    exact .cases (hop arg) (fun x _ => hN x) (ih yes (by simp; omega) (hunder _)) (ih no (by simp) hN)
  | attempt body _ handler =>
    exact .attempt (ih body (by simp; omega) hN) (ih handler (by simp) (hunder _))
  | _ => exact .flat rfl (congruent_refl hN fun _ _ _ => trivial)

/-! ### Fewer correspondences -/

section Narrows

variable {list list' : List Ident}

theorem Pairing.Narrows.under (h : N.Narrows N' (list.filter (!names.contains ·)) (list'.filter (!names.contains ·))) :
  (N.under names).Narrows (N'.under names) list list'
  := by
  rintro x hx y hy (hsame | ⟨hx', hy', hN⟩)
  · exact .inl hsame
  · exact .inr ⟨hx', hy', h x (by simp [hx, hx']) y (by simp [hy, hy']) hN⟩

theorem Twin.narrow (h : Twin N s s') (hN : N.Narrows N' s.occurrences s'.occurrences) :
  Twin N' s s'
  := by
  induction h generalizing N' with
  | @flat N s s' hs h =>
    exact .flat hs (h.narrow fun x hx y hy => hN x (s.reads_subset hx) y (s'.reads_subset hy))
  | scope _ ih => exact .scope (ih hN.under)
  | @seq N _ _ hlength h ih =>
    refine .seq hlength fun p hp => ih p hp fun x hx y hy => hN x ?_ y ?_
    · exact Stmt.mem_listOccurrences_iff.mpr ⟨_, (of_mem_zip hp).1, hx⟩
    · exact Stmt.mem_listOccurrences_iff.mpr ⟨_, (of_mem_zip hp).2, hy⟩
  | ifElse hcond _ _ ihyes ihno =>
    exact .ifElse (hcond.narrow hN.left.left) (ihyes hN.left.right) (ihno hN.right)
  | cases harg hpinned _ _ ihyes ihno =>
    refine .cases (harg.narrow hN.left.left.left) (fun x hx => ?_) (ihyes hN.left.right.under) (ihno hN.right)
    exact hN.left.left.right x hx x hx (hpinned x hx)
  | attempt _ _ ihbody ihhandler =>
    refine .attempt (ihbody hN.left) (ihhandler (Pairing.Narrows.under fun x hx y hy => ?_))
    exact hN.right x (by simpa using hx) y (by simpa using hy)

end Narrows

/-! ### Sequences and scopes -/

theorem twin_elements (h : Twin N s s') :
  Forall₂ (Twin N) s.elements s'.elements
  := by
  have hone : Forall₂ (Twin N) [s] [s'] := .cons h .nil
  cases h with
  | seq hlength h => exact forall₂_iff_zip.mpr ⟨hlength, fun hp => h _ hp⟩
  | flat hs h =>
    cases h with
    | skip => exact .nil
    | seq => cases hs
    | _ => exact hone
  | _ => exact hone

theorem twin_ofList (h : Forall₂ (Twin N) stmts stmts') :
  Twin N (.ofList stmts) (.ofList stmts')
  := by
  have hall : Forall₂ (Twin N) (stmts.flatMap Stmt.elements) (stmts'.flatMap Stmt.elements) :=
    rel_flatMap h fun _ _ h => twin_elements h
  rw [Stmt.ofList, Stmt.ofList]
  generalize stmts.flatMap Stmt.elements = list at hall ⊢
  generalize stmts'.flatMap Stmt.elements = list' at hall ⊢
  cases hall with
  | nil => exact .flat rfl .skip
  | cons hfirst hrest =>
    cases hrest with
    | nil => exact hfirst
    | cons hsecond hrest => exact twin_seq (.cons hfirst (.cons hsecond hrest))

theorem twin_within (h : Twin (N.under names) s s') :
  Twin N (.within names s) (.within names s')
  := by
  cases names with
  | cons => exact .scope h
  | nil =>
    have hunder : N.under [] = N := by
      funext x y
      simp [Pairing.under]
    rwa [hunder] at h

namespace Lowering

/-! ### Two computations -/

/-- The runs end in the same context, or with the same error. -/
inductive Alike {α β : Type} (R : α → β → Prop) :
    Except LowerError (α × Context) → Except LowerError (β × Context) → Prop where
  | ok {a b} (c : Context) (h : R a b) : Alike R (.ok (a, c)) (.ok (b, c))
  | error (e : LowerError) : Alike R (.error e) (.error e)

def Parallel {α β : Type} (x : Lower α) (y : Lower β) (R : α → β → Prop) : Prop := ∀ c, Alike R (x c) (y c)

section Combine

variable {α β γ δ : Type} {x : Lower α} {y : Lower β} {R R' : α → β → Prop} {S : γ → δ → Prop} {f : α → Lower γ}

theorem parallel_pure {a : α} {b : β} (h : R a b) :
  Parallel (pure a) (pure b) R
  := fun c => .ok c h

theorem Parallel.mono (h : Parallel x y R) (himp : ∀ a b, R a b → R' a b) :
  Parallel x y R'
  := by
  intro c
  have h := h c
  generalize x c = r at h ⊢
  generalize y c = r' at h ⊢
  cases h with
  | ok d hab => exact .ok d (himp _ _ hab)
  | error e => exact .error e

theorem Parallel.bind {g : β → Lower δ} (h : Parallel x y R) (hf : ∀ a b, R a b → Parallel (f a) (g b) S) :
  Parallel (x >>= f) (y >>= g) S
  := by
  intro c
  have hx : (x >>= f) c = (x c).bind fun p => f p.1 p.2 := rfl
  have hy : (y >>= g) c = (y c).bind fun p => g p.1 p.2 := rfl
  rw [hx, hy]
  have h := h c
  generalize x c = r at h ⊢
  generalize y c = r' at h ⊢
  cases h with
  | ok d hab => exact hf _ _ hab d
  | error e => exact .error e

theorem parallel_same (x : Lower α) :
  Parallel x x fun a b => a = b ∧ ∃ c c', x c = .ok (a, c')
  := by
  intro c
  cases hrun : x c with
  | error e => exact .error e
  | ok r => exact .ok r.2 ⟨rfl, c, r.2, hrun⟩

theorem parallel_next {g : α → Lower δ} (hf : ∀ a c c', x c = .ok (a, c') → Parallel (f a) (g a) S) :
  Parallel (x >>= f) (x >>= g) S
  := by
  apply (parallel_same x).bind
  rintro a _ ⟨rfl, c, c', hrun⟩
  exact hf a c c' hrun

theorem Parallel.inFrame {frame : JumpFrame} (h : Parallel x y R) :
  Parallel (inFrame frame x) (inFrame frame y) fun a b => R a.1 b.1
  := by
  intro c
  have hrun {γ : Type} (x : Lower γ) : Lowering.inFrame frame x c =
      (x { c with frames := frame :: c.frames }).bind fun p =>
        .ok ((p.1, p.2.frames.headD frame), { p.2 with frames := p.2.frames.tail }) := rfl
  rw [hrun, hrun]
  have h := h { c with frames := frame :: c.frames }
  generalize x _ = r at h ⊢
  generalize y _ = r' at h ⊢
  cases h with
  | error e => exact .error e
  | ok d hab => exact .ok _ hab

end Combine

/-! ### Temporaries -/

/-- No name of a program is generated. -/
abbrev Setup.Tidy (setup : Setup) : Prop := ∀ t ∈ setup.temps, ¬ Written t

theorem temps_operand {p : Phrase} {r : Operand × Setup} {c c' : Context} (h : p.operand c = .ok (r, c')) :
  r.2.Tidy
  := by
  intro t ht
  rw [temps_of_operand h t ht]
  exact not_written_tempName _

theorem temps_optionalOperand {p : Option Phrase} {r : Option Operand × Setup} {c c' : Context}
    (h : optionalOperand p c = .ok (r, c')) :
  r.2.Tidy
  := by
  rcases optionalOperand_eq_ok h with ⟨-, -, hsetup⟩ | ⟨q, g, -, -, hoperand⟩
  · rw [hsetup]
    exact forall_mem_nil _
  · exact temps_operand hoperand

theorem temps_append {setup more : Setup} (h : setup.Tidy) (h' : more.Tidy) :
  (setup ++ more).Tidy
  := forall_mem_append.mpr ⟨h, h'⟩

theorem temps_operands {ps : List Phrase} {r : List Operand × Setup} {c c' : Context}
    (h : operands ps c = .ok (r, c')) :
  r.2.Tidy
  := by
  induction ps generalizing r c c' with
  | nil =>
    obtain ⟨rfl, -⟩ := pure_eq_ok_iff.mp h
    exact forall_mem_nil _
  | cons p _ ih =>
    obtain ⟨_, d, hfirst, h⟩ := bind_eq_ok_iff.mp h
    obtain ⟨_, e, hmore, h⟩ := bind_eq_ok_iff.mp h
    obtain ⟨rfl, -⟩ := pure_eq_ok_iff.mp h
    exact temps_append (temps_operand hfirst) (ih hmore)

/-! ### Statements that deliver alike -/

/-- The statements deliver to `x` and `y` alike, at places around which names are bound. -/
def Carried (x y : Ident) (places : List (List Ident)) (s s' : Stmt) : Prop :=
  ∀ N : Pairing, (∀ a, N a a) → (∀ around ∈ places, x ∉ around ∧ y ∉ around ∧ N x y) → Twin N s s'

section Carried

variable {x y : Ident} {places Q : List (List Ident)} {setup : Setup}

theorem Carried.same (s : Stmt) :
  Carried x y places s s
  := fun _ hN _ => .refl hN s

theorem Carried.mono (h : Carried x y places s s') (hsub : places ⊆ Q) :
  Carried x y Q s s'
  := fun N hN hplaces => h N hN fun around haround => hplaces around (hsub haround)

theorem carried_here (h : ∀ N : Pairing, (∀ a, N a a) → N x y → Twin N s s') :
  Carried x y [[]] s s'
  := fun N hN hplaces => h N hN (hplaces [] (mem_singleton_self _)).2.2

theorem Carried.under (h : Carried x y places s s') (hN : ∀ a, N a a)
    (hplaces : ∀ around ∈ places, x ∉ names ++ around ∧ y ∉ names ++ around ∧ N x y) :
  Twin (N.under names) s s'
  := by
  apply h _ (Pairing.refl_under hN names)
  intro around haround
  obtain ⟨hx, hy, hxy⟩ := hplaces around haround
  rw [mem_append, not_or] at hx hy
  exact ⟨hx.2, hy.2, .inr ⟨hx.1, hy.1, hxy⟩⟩

theorem carried_ofList (h : Forall₂ (Carried x y places) stmts stmts') :
  Carried x y places (.ofList stmts) (.ofList stmts')
  := fun _ hN hplaces => twin_ofList (h.imp fun _ _ h => h _ hN hplaces)

variable (hx : Written x) (hy : Written y)

include hx hy

theorem Carried.generated (h : Carried x y places s s') (hnames : ∀ t ∈ names, ¬ Written t) :
  Carried x y places (.within names s) (.within names s')
  := by
  intro N hN hplaces
  refine twin_within (h.under hN fun around haround => ?_)
  obtain ⟨hx', hy', hxy⟩ := hplaces around haround
  rw [mem_append, mem_append, not_or, not_or]
  exact ⟨⟨fun hmem => hnames x hmem hx, hx'⟩, ⟨fun hmem => hnames y hmem hy, hy'⟩, hxy⟩

theorem carried_finish (hsetup : setup.Tidy) (h : Carried x y places s s') :
  Carried x y places (setup.finish s) (setup.finish s')
  := by
  refine Carried.generated hx hy (carried_ofList ?_) hsetup
  exact List.rel_append (forall₂_same.mpr fun s _ => .same s) (.cons h .nil)

theorem parallel_deliver {stmt : Ident → Stmt} (hsetup : setup.Tidy)
    (h : ∀ N : Pairing, (∀ a, N a a) → N x y → Twin N (stmt x) (stmt y)) :
  Parallel (deliver setup (.ident x) stmt) (deliver setup (.ident y) stmt) (Carried x y [[]])
  := parallel_pure (carried_finish hx hy (temps_append hsetup (forall_mem_nil _)) (carried_here h))

end Carried

/-- The phrase delivers to `x` and `y` alike. -/
abbrev Moves (x y : Ident) (places : List (List Ident)) (into : Target → Lower Stmt) : Prop :=
  Parallel (into (.ident x)) (into (.ident y)) (Carried x y places)

section Constructs

variable {x y : Ident} {places P : List (List Ident)} {label : Option Phrase} {p left right : Phrase}
  {args : List Phrase} {arg : Operand} {fallback : Fallback}

theorem moves_const (s : Lower Stmt) :
  Moves x y places fun _ => s
  := (parallel_same s).mono fun a _ hab => hab.1 ▸ .same a

theorem moves_atom (arg : Operand) :
  Moves x y [[]] (atom arg).into
  := parallel_pure (carried_here fun _ hN hxy => .flat rfl (.bind (operandTwin_refl hN arg) hxy))

theorem carried_named (name : Ident) (create : Stmt) :
  Carried x y [[]] (named name create (.ident x)) (named name create (.ident y))
  := carried_here fun _ hN hxy =>
    twin_ofList (.cons (.refl hN create) (.cons (.flat rfl (.bind (.ident (hN name)) hxy)) .nil))

theorem operandTwins_target (hN : ∀ a, N a a) (hxy : N x y) (args : List Operand) :
  Forall₂ (OperandTwin N) (args ++ targetArgs (.ident x)) (args ++ targetArgs (.ident y))
  := List.rel_append (operandTwins_refl hN args) (.cons (.ident hxy) .nil)

theorem parallel_inOrder {ps : List Phrase} (h : ∀ p ∈ ps.getLast?, Moves x y places p.into) :
  Parallel (inOrder ps (.ident x)) (inOrder ps (.ident y)) (Forall₂ (Carried x y places))
  := by
  induction ps with
  | nil => exact parallel_pure .nil
  | cons p rest ih =>
    cases rest with
    | nil => exact (h p rfl).bind fun s s' hs => parallel_pure (.cons hs .nil)
    | cons =>
      apply parallel_next
      intro s c _ _
      apply (ih h).bind
      intro _ _ hstmts
      exact parallel_pure (.cons (.same s) hstmts)

theorem moves_block {b : Block} (h : ∀ p ∈ b.sentences.getLast?, Moves x y P p.into)
    (hP : P.map (b.declared ++ ·) ⊆ places) :
  Moves x y places b.into
  := (parallel_inOrder h).bind fun _ _ hstmts =>
    parallel_pure fun _ hN hplaces => twin_within ((carried_ofList hstmts).under hN
      fun _ haround => hplaces _ (hP (mem_map_of_mem haround)))

variable (hx : Written x) (hy : Written y)

include hx hy

theorem moves_record (fields : List (Phrase × Phrase)) :
  Moves x y [[]] (record label fields)
  := by
  apply parallel_next
  rintro ⟨l, _⟩ c _ hl
  apply parallel_next
  rintro ⟨_, _⟩ c _ hargs
  apply parallel_deliver hx hy (temps_append (temps_optionalOperand hl) (temps_operands hargs))
  exact fun N hN hxy => .flat rfl (.createRecord (labelTwin_refl hN l) (fieldTwins_refl hN _) hxy)

theorem moves_tuple (values : List Phrase) :
  Moves x y [[]] (tuple label values)
  := by
  apply parallel_next
  rintro ⟨l, _⟩ c _ hl
  apply parallel_next
  rintro ⟨args, _⟩ c _ hargs
  apply parallel_deliver hx hy (temps_append (temps_optionalOperand hl) (temps_operands hargs))
  exact fun N hN hxy => .flat rfl (.createTuple (labelTwin_refl hN l) (operandTwins_refl hN args) hxy)

theorem moves_unary {stmt : Operand → Ident → Stmt}
    (h : ∀ (N : Pairing) arg, (∀ a, N a a) → N x y → Twin N (stmt arg x) (stmt arg y)) :
  Moves x y [[]] fun t => p.operand >>= fun (arg, setup) => deliver setup t (stmt arg)
  := by
  apply parallel_next
  rintro ⟨arg, _⟩ c _ harg
  exact parallel_deliver hx hy (temps_operand harg) fun N hN hxy => h N arg hN hxy

theorem moves_binary {stmt : Operand → Operand → Ident → Stmt}
    (h : ∀ (N : Pairing) l r, (∀ a, N a a) → N x y → Twin N (stmt l r x) (stmt l r y)) :
  Moves x y [[]] fun t => left.operand >>= fun (l, setup) => right.operand >>= fun (r, more) =>
    deliver (setup ++ more) t (stmt l r)
  := by
  apply parallel_next
  rintro ⟨l, _⟩ c _ hl
  apply parallel_next
  rintro ⟨r, _⟩ c _ hr
  exact parallel_deliver hx hy (temps_append (temps_operand hl) (temps_operand hr)) fun N hN hxy => h N l r hN hxy

theorem moves_shortCircuit (evaluates : Bool) (h : Moves x y P right.into) :
  Moves x y ([] :: P) (shortCircuit evaluates left right)
  := by
  apply parallel_next
  rintro ⟨cond, _⟩ c _ hcond
  apply h.bind
  intro _ _ hmore
  apply parallel_pure
  apply carried_finish hx hy (temps_operand hcond)
  intro N hN hplaces
  obtain ⟨hhere, hplaces⟩ := forall_mem_cons.mp hplaces
  have hmore := hmore N hN hplaces
  have hshort : Twin N (.bind (.lit (.bool (!evaluates))) x) (.bind (.lit (.bool (!evaluates))) y) :=
    .flat rfl (.bind (.lit _) hhere.2.2)
  cases evaluates with
  | true => exact .ifElse (operandTwin_refl hN cond) hmore hshort
  | false => exact .ifElse (operandTwin_refl hN cond) hshort hmore

theorem moves_not (p : Phrase) :
  Moves x y [[]] (Lowering.not p)
  := by
  apply parallel_next
  rintro ⟨cond, _⟩ c _ hcond
  apply parallel_pure
  apply carried_finish hx hy (temps_operand hcond)
  exact carried_here fun N hN hxy =>
    .ifElse (operandTwin_refl hN cond) (.flat rfl (.bind (.lit _) hxy)) (.flat rfl (.bind (.lit _) hxy))

theorem moves_apply (proc : Phrase) :
  Moves x y [[]] (Lowering.apply proc args)
  := by
  apply parallel_next
  rintro ⟨f, _⟩ c _ hf
  apply parallel_next
  rintro ⟨as, _⟩ c _ has
  apply parallel_pure
  apply carried_finish hx hy (temps_append (temps_operand hf) (temps_operands has))
  exact carried_here fun N hN hxy =>
    .flat rfl (.apply (operandTwin_refl hN f) (operandTwins_target hN hxy as))

theorem moves_selectApply (record : Phrase) (path : List Operand) :
  Moves x y [[]] (selectApply record path args)
  := by
  apply parallel_next
  rintro ⟨r, _⟩ c _ hr
  apply parallel_next
  rintro ⟨as, _⟩ c _ has
  apply parallel_pure
  apply carried_finish hx hy (temps_append (temps_operand hr) (temps_operands has))
  exact carried_here fun N hN hxy => .flat rfl (.selectApply (operandTwin_refl hN r)
    (operandTwins_refl hN path) (operandTwins_target hN hxy as))

theorem moves_procedure (name : Option Ident) (params : List Ident) (body : Block) (hasResult : Bool) :
  Moves x y [[]] (procedure name params body hasResult)
  := by
  apply parallel_next
  rintro ⟨s, _⟩ c _ _
  cases name with
  | some name => exact parallel_pure (carried_named name _)
  | none =>
    apply parallel_deliver hx hy (forall_mem_nil _)
    exact fun N hN hxy => .flat rfl (.createProc (fun z _ => hN z) trivial hxy)

omit hx hy in
theorem moves_actor (name : Ident) (params : List Ident) (start : Block) (asks tells : List Alternative) :
  Moves x y [[]] (actor name params start asks tells)
  := by
  iterate 5
    apply parallel_next
    intro _ _ _ _
  exact parallel_pure (carried_named name _)

theorem moves_conditional {branches : List (Phrase × Block)} {otherwise : Option Block}
    (hbranches : ∀ b ∈ branches, Moves x y places b.2.into)
    (hotherwise : ∀ b ∈ otherwise, Moves x y places b.into) :
  Moves x y places (conditional branches otherwise)
  := by
  induction branches with
  | nil =>
    cases otherwise with
    | some b => exact hotherwise b rfl
    | none => exact parallel_pure (.same _)
  | cons _ _ ih =>
    obtain ⟨hbody, hrest⟩ := forall_mem_cons.mp hbranches
    apply parallel_next
    rintro ⟨arg, _⟩ c _ harg
    apply hbody.bind
    intro _ _ hyes
    apply (ih hrest).bind
    intro _ _ hno
    apply parallel_pure
    apply carried_finish hx hy (temps_operand harg)
    exact fun N hN hplaces => .ifElse (operandTwin_refl hN arg) (hyes N hN hplaces) (hno N hN hplaces)

/-! ### Alternatives -/

section Alternatives

variable {guarded guarded' failed failed' body body' : Stmt} {children : List ChildPattern} {root : Kernel.Pattern}
  {guard : Option Operand} {setup : Setup} {alts : List Alternative}

omit hx hy in
theorem carried_children (hnames : ∀ z ∈ captured (childUses children), z ≠ x ∧ z ≠ y)
    (hguarded : Carried x y [[]] guarded guarded')
    (hfailed : children ≠ [] → Carried x y [[]] failed failed') :
  Carried x y [[]] (matchChildrenThen children guarded failed) (matchChildrenThen children guarded' failed')
  := by
  induction children with
  | nil => exact hguarded
  | cons child rest ih =>
    have huses : childUses (child :: rest) = child.pattern.uses ++ childUses rest := rfl
    rw [huses, captured_append, child.pattern.captured_uses_eq] at hnames
    obtain ⟨hhere, hrest⟩ := forall_mem_append.mp hnames
    have hfailed := hfailed (cons_ne_nil _ _)
    intro N hN hplaces
    refine .cases (.ident (hN _)) (fun z _ => hN z) ?_ (hfailed N hN hplaces)
    refine (ih hrest fun _ => hfailed).under hN (forall_mem_singleton.mpr ?_)
    rw [append_nil]
    exact ⟨fun hmem => (hhere x hmem).1 rfl, fun hmem => (hhere y hmem).2 rfl, (hplaces [] (mem_singleton_self _)).2.2⟩

/-- The first of some alternatives.  Its body delivers in the scope of what is captured, and what is done if it
fails may be there, too. -/
theorem carried_alternative {p : Pattern} (arg : Operand)
    (hpattern : ∀ z ∈ captured (root.uses ++ childUses children), z ∈ captured p.uses ∨ ¬ Written z)
    (hsetup : setup.Tidy) (hbody : Carried x y P body body')
    (hplace : captured p.uses ∈ places) (hP : P.map (captured p.uses ++ ·) ⊆ places)
    (hfailed : Carried x y places failed failed') :
  (children ≠ [] ∨ guard.isSome → Carried x y [[]] failed failed') →
  Carried x y places (matchThen arg root children (guardThen guard setup body failed) failed)
    (matchThen arg root children (guardThen guard setup body' failed') failed')
  := by
  intro hinner N hN hplaces
  obtain ⟨hx', hy', hxy⟩ := hplaces _ hplace
  have hnames : ∀ z ∈ captured (root.uses ++ childUses children), z ≠ x ∧ z ≠ y := by
    refine fun z hz => ⟨?_, ?_⟩
    · rintro rfl
      exact (hpattern z hz).elim hx' fun h => h hx
    · rintro rfl
      exact (hpattern z hz).elim hy' fun h => h hy
  rw [captured_append, root.captured_uses_eq] at hnames
  obtain ⟨hroot, hchildren⟩ := forall_mem_append.mp hnames
  have hbody : Carried x y [[]] body body' := carried_here fun N hN hxy => hbody N hN fun around haround => by
    obtain ⟨hx', hy', -⟩ := hplaces _ (hP (mem_map_of_mem haround))
    rw [mem_append, not_or] at hx' hy'
    exact ⟨hx'.2, hy'.2, hxy⟩
  refine .cases (operandTwin_refl hN arg) (fun z _ => hN z) ?_ (hfailed N hN hplaces)
  refine (carried_children hchildren ?_ fun hne => hinner (.inl hne)).under hN (forall_mem_singleton.mpr ?_)
  · cases guard with
    | none => exact hbody
    | some guard =>
      have hfailed := hinner (.inr rfl)
      apply carried_finish hx hy hsetup
      exact fun M hM hplaces => .ifElse (operandTwin_refl hM guard) (hbody M hM hplaces) (hfailed M hM hplaces)
  · rw [append_nil]
    exact ⟨fun hmem => (hroot x hmem).1 rfl, fun hmem => (hroot y hmem).2 rfl, hxy⟩

/-- The body of the alternative delivers in the scope of what is captured, and nothing is bound around one place. -/
abbrev Opens (x y : Ident) (places : List (List Ident)) (alt : Alternative) : Prop :=
  ∃ P, Moves x y P alt.body.into ∧ [] :: captured alt.pattern.uses :: P.map (captured alt.pattern.uses ++ ·) ⊆ places

theorem moves_alternatives (arg : Operand) (hfallback : Moves x y places fallback.into)
    (hfirst : ∀ alt ∈ alts.head?, Opens x y places alt) :
  Moves x y places (alternatives arg fallback alts)
  := by
  cases alts with
  | nil => exact hfallback
  | cons alt =>
    obtain ⟨P, hbody, hplaces⟩ := hfirst alt rfl
    obtain ⟨hhere, hplaces⟩ := cons_subset.mp hplaces
    obtain ⟨hplace, hP⟩ := cons_subset.mp hplaces
    rw [Moves, alternatives_cons, alternatives_cons]
    apply parallel_next
    rintro ⟨root, children⟩ c _ hpattern
    replace hpattern : ∀ z ∈ captured (root.uses ++ childUses children), z ∈ captured alt.pattern.uses ∨ ¬ Written z :=
      fun z hz => ((Control.flattened_lower hpattern).2 z hz).imp_right Generated.not_written
    dsimp only
    split
    next hdone =>
      apply parallel_next
      rintro ⟨guard, _⟩ c _ hguard
      have hsetup := temps_optionalOperand hguard
      apply hbody.bind
      intro _ _ hbody
      rcases Bool.or_eq_true_iff.mp (Bool.and_eq_true_iff.mp hdone).2 with honce | hskip
      · -- the alternative fails at one place, which is not in the scope of what is captured
        obtain ⟨rfl, hnone⟩ : children = [] ∧ alt.guard = none := by simpa using honce
        obtain ⟨rfl, -⟩ : guard = none ∧ _ := by
          rcases optionalOperand_eq_ok hguard with ⟨-, hguard⟩ | ⟨q, g, hsome, -⟩
          · exact hguard
          · cases hnone.symm.trans hsome
        apply hfallback.bind
        intro _ _ hfailed
        exact parallel_pure (carried_alternative hx hy arg hpattern hsetup hbody hplace hP hfailed (by simp))
      · cases fallback with
        | skip =>
          exact parallel_pure (carried_alternative hx hy arg hpattern hsetup hbody hplace hP (.same _) fun _ => .same _)
        | _ => cases hskip
    next =>
      apply parallel_next
      intro next d _ hnext
      obtain ⟨rfl, -⟩ := freshTemp_eq_ok_iff.mp hnext
      apply parallel_next
      rintro ⟨_, _⟩ c _ hguard
      apply hbody.bind
      intro _ _ hbody
      apply parallel_next
      rintro ⟨_, _⟩ _ _ _
      apply parallel_pure
      have hcall : Carried x y [[]] (.apply (.ident (tempName d.next)) (targetArgs (.ident x)))
          (.apply (.ident (tempName d.next)) (targetArgs (.ident y))) :=
        carried_here fun N hN hxy => .flat rfl (.apply (.ident (hN _)) (operandTwins_target hN hxy []))
      refine Carried.generated hx hy (carried_ofList (.cons (.same _) (.cons ?_ .nil))) ?_
      · exact carried_alternative hx hy arg hpattern (temps_optionalOperand hguard) hbody hplace hP
          (hcall.mono (cons_subset.mpr ⟨hhere, nil_subset _⟩)) fun _ => hcall
      · exact forall_mem_singleton.mpr (not_written_tempName _)

theorem moves_cases {arg : Phrase} {clauses : List Alternative} {otherwise : Option Block}
    (hfirst : ∀ alt ∈ clauses.head?, Opens x y places alt)
    (hotherwise : ∀ b ∈ otherwise, Moves x y places b.into) :
  Moves x y places (Lowering.cases arg clauses otherwise)
  := by
  apply parallel_next
  rintro ⟨a, _⟩ c _ harg
  have hdone {fallback : Fallback} (hfallback : Moves x y places fallback.into) :=
    (moves_alternatives hx hy a hfallback hfirst).bind fun s s' hs =>
      parallel_pure (carried_finish hx hy (temps_operand harg) hs)
  cases otherwise with
  | none => exact hdone (parallel_pure (.same _))
  | some b => exact hdone (hotherwise b rfl)

theorem moves_guarded {body : Block} {catches : List Alternative} (final : Option Ident)
    (hbody : Moves x y places body.into)
    (hfirst : ∀ alt ∈ catches.head?, Opens x y places alt) :
  Moves x y places (Lowering.guarded body catches final)
  := by
  apply hbody.bind
  intro attempted attempted' hattempted
  apply parallel_next
  intro _ c _ hcaught
  obtain ⟨rfl, -⟩ := freshTemp_eq_ok_iff.mp hcaught
  have hrethrow : Moves x y places (Fallback.rethrow (tempName c.next)).into := parallel_pure (.same _)
  have hcatches := moves_alternatives hx hy (.ident (tempName c.next)) hrethrow hfirst
  have hdone {handler handler' : Stmt} (h : Carried x y places handler handler') :
      Carried x y places (.attempt attempted (tempName c.next) handler)
        (.attempt attempted' (tempName c.next) handler') := by
    intro N hN hplaces
    refine .attempt (hattempted N hN hplaces) (h.under hN fun around haround => ?_)
    obtain ⟨hx', hy', hxy⟩ := hplaces around haround
    rw [singleton_append, mem_cons, mem_cons, not_or, not_or]
    exact ⟨⟨Control.ne_tempName_of_written hx _, hx'⟩, ⟨Control.ne_tempName_of_written hy _, hy'⟩, hxy⟩
  cases final with
  | none => exact hcatches.bind fun handler handler' h => parallel_pure (hdone h)
  | some =>
    dsimp only
    split
    · exact parallel_pure (hdone (.same _))
    · apply hcatches.bind
      intro _ _ hhandler
      apply parallel_next
      intro _ _ _ _
      refine parallel_pure (hdone fun N hN hplaces => .attempt (hhandler N hN hplaces) ?_)
      exact .refl (Pairing.refl_under hN _) _

theorem moves_attempt {body : Block} {catches : List Alternative} (final : Option Block)
    (hbody : Moves x y places body.into)
    (hfirst : ∀ alt ∈ catches.head?, Opens x y places alt) :
  Moves x y places (attempt body catches final)
  := by
  cases final with
  | none => exact moves_guarded hx hy none hbody hfirst
  | some _ =>
    apply parallel_next
    intro f c _ hf
    obtain ⟨rfl, -⟩ := freshTemp_eq_ok_iff.mp hf
    apply (moves_guarded hx hy (some (tempName c.next)) hbody hfirst).inFrame.bind
    rintro ⟨s, _⟩ ⟨_, _⟩ hs
    apply parallel_next
    intro _ _ _ _
    apply parallel_pure
    refine Carried.generated hx hy (carried_ofList (.cons (.same _) (.cons hs (.cons (.same _) .nil)))) ?_
    exact forall_mem_singleton.mpr (not_written_tempName _)

end Alternatives

end Constructs

end Lowering

end ActorLang
