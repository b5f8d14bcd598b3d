import ActorLang.Proofs.Actor.TwinSystems
import ActorLang.Proofs.Lowering.Targets

/-!
# The name of a target

A variable gets its initial value under its name, also from inside of blocks and clauses.  The name
does not matter, unless it occurs freely in the value or is bound around a place that delivers it.
-/

namespace ActorLang

open Kernel (Ident Operand Stmt programResult)
open List
open Exec (operandTwin_refl)

namespace Lowering

/-! ### Expressions -/

section Expressions

variable {x y : Ident} {places : List (List Ident)} {body : List Expr}

theorem getLast?_ofList {p : Phrase} (h : p ∈ (ofList body).getLast?) :
  ∃ e ∈ body, p = ofExpr e ∧ lastPlaces body = e.places
  := by
  induction body with
  | nil => cases h
  | cons e rest ih =>
    cases rest with
    | nil =>
      cases h
      exact ⟨e, mem_singleton_self e, rfl, rfl⟩
    | cons =>
      obtain ⟨last, hlast, hp, hplaces⟩ := ih h
      exact ⟨last, mem_cons_of_mem _ hlast, hp, hplaces⟩

theorem moves_body (h : ∀ e ∈ body, Moves x y e.places (ofExpr e).into)
    (hplaces : (lastPlaces body).map (declaredNames body ++ ·) ⊆ places) :
  Moves x y places (block body (ofList body)).into
  := by
  refine moves_block (fun p hp => ?_) hplaces
  obtain ⟨e, he, rfl, heq⟩ := getLast?_ofList hp
  rw [heq]
  exact h e he

theorem moves_ofOtherwise {o : Option (List Expr)}
    (h : ∀ body ∈ o, ∀ e ∈ body, Moves x y e.places (ofExpr e).into) (hplaces : otherwisePlaces o ⊆ places) :
  ∀ b ∈ ofOtherwise o, Moves x y places b.into
  := by
  intro b hb
  obtain ⟨body, hbody, rfl⟩ := mem_ofOtherwise hb
  cases hbody
  exact moves_body (h body rfl) hplaces

theorem moves_ofClauses {clauses : List Clause}
    (h : ∀ p guard body, .mk p guard body ∈ clauses → ∀ e ∈ body, Moves x y e.places (ofExpr e).into)
    (hplaces : firstPlaces clauses ⊆ places) :
  ∀ alt ∈ (ofClauses clauses).head?, Opens x y places alt
  := by
  intro _ halt
  cases clauses with
  | nil => cases halt
  | cons clause =>
    obtain ⟨p, _, _⟩ := clause
    cases halt
    refine ⟨_, moves_body (h _ _ _ (mem_cons_self ..)) (Subset.refl _), ?_⟩
    simpa [firstPlaces, Function.comp_def] using hplaces

/-- An expression delivers to two names alike. -/
theorem moves_of_proper {e : Expr} (h : e.Proper) (hx : Written x) (hy : Written y) :
  Moves x y e.places (ofExpr e).into
  := by
  induction h with
  | lit | ident => exact moves_atom _
  | record => exact moves_record hx hy _
  | tuple => exact moves_tuple hx hy _
  | binary _ op _ _ _ ihright =>
    rw [ofExpr, ofForm, Expr.places, Form.places]
    cases op.prim? with
    | some op =>
      exact moves_binary hx hy fun N l r hN hxy =>
        .flat rfl (.binary op (operandTwin_refl hN l) (operandTwin_refl hN r) hxy)
    | none => exact moves_shortCircuit hx hy _ ihright
  | unary _ op =>
    cases op with
    | not => exact moves_not hx hy _
    | negate => exact moves_unary hx hy fun N arg hN hxy => .flat rfl (.negate (operandTwin_refl hN arg) hxy)
  | content => exact moves_unary hx hy fun N arg hN hxy => .flat rfl (.get (operandTwin_refl hN arg) hxy)
  | select =>
    exact moves_binary hx hy fun N l r hN hxy =>
      .flat rfl (.select (operandTwin_refl hN l) (operandTwin_refl hN r) hxy)
  | apply => exact moves_apply hx hy _
  | selectApply => exact moves_selectApply hx hy _ _
  | func | proc => exact moves_procedure hx hy _ _ _ _
  | block _ _ ihbody => exact moves_body ihbody (Subset.refl _)
  | ifElse _ _ _ _ _ ihbodies ihotherwise =>
    refine moves_conditional hx hy (fun b hb => ?_) (moves_ofOtherwise ihotherwise (subset_append_right _ _))
    obtain ⟨_, _, hmem, rfl⟩ := mem_ofBranches hb
    exact moves_body (ihbodies _ _ hmem) (Subset.trans (places_subset_branchPlaces hmem) (subset_append_left _ _))
  | cases _ _ _ _ _ _ _ _ _ ihbodies ihotherwise =>
    exact moves_cases hx hy (moves_ofClauses ihbodies (subset_append_left _ _))
      (moves_ofOtherwise ihotherwise (subset_append_right _ _))
  | attempt _ _ _ _ _ _ ihbody _ ihbodies =>
    exact moves_attempt hx hy _ (moves_body ihbody (subset_append_left _ _))
      (moves_ofClauses ihbodies (subset_append_right _ _))
  | var | unify | assign | whileLoop | forLoop | throw | ret | brk | cont | skip => exact moves_const _
  | actor => exact moves_actor _ _ _ _ _

end Expressions

/-! ### Programs -/

/-- The names other than the two correspond to themselves, and the one to the other. -/
def replacing (x y : Ident) : Pairing := fun a b => a = b ∧ a ≠ x ∧ a ≠ y ∨ a = x ∧ b = y

theorem ne_of_written {x : Ident} (hx : Written x) :
  x ≠ programResult
  := by
  rintro rfl
  revert hx
  decide

theorem fits_replacing {x y : Ident} (hx : Written x) (hy : Written y) (env : Env) (v : VarId) :
  (replacing x y).Fits (env.extend [(x, v)]) (env.extend [(y, v)])
  := by
  have hnew (z : Ident) : (env.extend [(z, v)]).lookup z = some v := by
    simp [Env.extend]
  rintro a b (⟨rfl, hax, hay⟩ | ⟨rfl, rfl⟩)
  · have hlookup {z : Ident} (hne : a ≠ z) : (env.extend [(z, v)]).lookup a = env.lookup a :=
      Env.lookup_extend_of_not_mem (by simpa using hne)
    refine ⟨?_, Iff.rfl⟩
    cases ha : env.lookup a with
    | none => exact .missing trivial ((hlookup hax).trans ha) ((hlookup hay).trans ha)
    | some w => exact .bound w ((hlookup hax).trans ha) ((hlookup hay).trans ha) trivial
  · exact ⟨.bound v (hnew a) (hnew b) trivial, iff_of_false (ne_of_written hx) (ne_of_written hy)⟩

/-- What is lowered from an expression uses its free names and the target. -/
theorem occurrences_of_into {e : Expr} (he : e.Proper) {x : Ident} (hx : Written x) {s : Stmt} {c : Context}
    (hrun : (ofExpr e).into (.ident x) {} = .ok (s, c)) :
  ∀ a ∈ s.occurrences, a = x ∨ a ∈ e.free
  := by
  intro a ha
  have hdelivers := (Control.sane_of_proper he).disciplined.into (.ident x)
  refine (Control.mem_of_delivers hdelivers ?_ hrun a ha).imp mem_singleton.mp And.left
  exact forall_mem_singleton.mpr (Control.ne_tempName_of_written hx)

/-- Neither name occurs but as the target. -/
theorem twin_replacing {x y : Ident} {names : List Ident} {places : List (List Ident)} {s s' : Stmt}
    (hs : ∀ a ∈ s.occurrences, a = x ∨ a ∈ names) (hs' : ∀ a ∈ s'.occurrences, a = y ∨ a ∈ names)
    (hnames : x ∉ names ∧ y ∉ names) (hplaces : ∀ around ∈ places, x ∉ around ∧ y ∉ around)
    (h : Carried x y places s s') :
  Twin (replacing x y) s s'
  := by
  have htwin : Twin (fun a b => a = b ∨ a = x ∧ b = y) s s' := by
    apply h _ (fun _ => .inl rfl)
    exact fun around haround => ⟨(hplaces around haround).1, (hplaces around haround).2, .inr ⟨rfl, rfl⟩⟩
  apply htwin.narrow
  rintro a ha b hb (rfl | hab)
  · rcases hs a ha with rfl | hfree
    · exact .inr ⟨rfl, (hs' a hb).resolve_right hnames.1⟩
    · refine .inl ⟨rfl, ?_, ?_⟩
      · rintro rfl
        exact hnames.1 hfree
      · rintro rfl
        exact hnames.2 hfree
  · exact .inr hab

end Lowering

open Lowering

/-- A program that declares a variable with an initial value, and results in it. -/
def Program.declaring (span span' : Span) (x : Ident) (e : Expr) : Program :=
  ⟨[.mk span (.var [.mk x (some e)]), .mk span' (.ident x)]⟩

namespace Program

/-- The statement that declares a variable, fills it and results in it. -/
def declaration (x : Ident) (s : Stmt) : Stmt :=
  .scope [x] (.ofList [.ofList [s], .bind (.ident x) programResult])

theorem lower_declaring (span span' : Span) (x : Ident) (e : Expr) :
  (declaring span span' x e).lower (.ident programResult) =
    ((ofExpr e).into (.ident x) {}).map fun r => declaration x r.1
  := by
  have hdeclared : declaredNames (declaring span span' x e).body = [x] := rfl
  have hdecls : ofDecls [.mk x (some e)] = [(x, ofExpr e)] := by
    simp only [ofDecls]
  have hinto : (block (declaring span span' x e).body (ofList (declaring span span' x e).body)).into
      (.ident programResult) = do
        let s ← (ofExpr e).into (.ident x)
        return declaration x s := by
    simp only [block, Block.into]
    simp only [declaring, ofList, ofExpr, ofForm, inOrder, hdecls, initialValues, bind_assoc]
    rfl
  rw [lower, hinto]
  change Except.map (·.1) (((ofExpr e).into (.ident x) {}).bind fun r => .ok (declaration x r.1, r.2)) = _
  cases (ofExpr e).into (.ident x) {} <;> rfl

/-- The name of the variable does not matter. -/
theorem evaluate_declaring {e : Expr} (he : e.Proper) {x y : Ident} (hx : Written x) (hy : Written y)
    (hfree : x ∉ e.free ∧ y ∉ e.free) (hplaces : ∀ around ∈ e.places, x ∉ around ∧ y ∉ around)
    (span₁ span₂ span₃ span₄ : Span) (fuel maxSteps : Nat) :
  ((declaring span₁ span₂ x e).lower (.ident programResult)).map (evaluate fuel · maxSteps) =
      ((declaring span₃ span₄ y e).lower (.ident programResult)).map (evaluate fuel · maxSteps) ∧
    ∀ rounds, ((declaring span₁ span₂ x e).lower (.ident programResult)).map (runProgram rounds fuel · maxSteps) =
      ((declaring span₃ span₄ y e).lower (.ident programResult)).map (runProgram rounds fuel · maxSteps)
  := by
  rw [lower_declaring, lower_declaring]
  have hmoves := moves_of_proper he hx hy {}
  generalize hrun : (ofExpr e).into (.ident x) {} = r at hmoves ⊢
  generalize hrun' : (ofExpr e).into (.ident y) {} = r' at hmoves ⊢
  cases hmoves with
  | error => exact ⟨rfl, fun _ => rfl⟩
  | ok c hcarried =>
    have hfill := twin_replacing (occurrences_of_into he hx hrun) (occurrences_of_into he hy hrun') hfree hplaces hcarried
    have hresult : replacing x y programResult programResult := .inl ⟨rfl, (ne_of_written hx).symm, (ne_of_written hy).symm⟩
    have hvalue : Twin (replacing x y) (.bind (.ident x) programResult) (.bind (.ident y) programResult) :=
      .flat rfl (.bind (.ident (.inr ⟨rfl, rfl⟩)) hresult)
    have hbody := twin_ofList (.cons (twin_ofList (.cons hfill .nil)) (.cons hvalue .nil))
    have hfits := fits_replacing hx hy
    exact ⟨congrArg Except.ok (hbody.evaluate hfits fuel maxSteps),
      fun rounds => congrArg Except.ok (hbody.runProgram hfits rounds fuel maxSteps)⟩

/-- A match whose second clause captures a name: `case 5 of 7 then 1 of x then x + 1 end`. -/
def laterCapture : Expr :=
  .mk .unknown (.cases (.mk .unknown (.lit (.int32 5)))
    [.mk (.mk .unknown (.lit (.int32 7))) none [.mk .unknown (.lit (.int32 1))], .mk (.mk .unknown (.ident "x")) none
        [.mk .unknown (.binary .add (.mk .unknown (.ident "x")) (.mk .unknown (.lit (.int32 1))))]] none)

theorem evaluate_declaring_laterCapture :
  laterCapture.Proper ∧ "x" ∉ laterCapture.free ∧
  ((declaring .unknown .unknown "x" laterCapture).lower (.ident programResult)).map (evaluate 100 · 0) =
    ((declaring .unknown .unknown "y" laterCapture).lower (.ident programResult)).map (evaluate 100 · 0) ∧
  (∀ rounds,
    ((declaring .unknown .unknown "x" laterCapture).lower (.ident programResult)).map (runProgram rounds 100 · 0) =
      ((declaring .unknown .unknown "y" laterCapture).lower (.ident programResult)).map
        (runProgram rounds 100 · 0)) ∧
  ((declaring .unknown .unknown "y" laterCapture).lower (.ident programResult)).map (evaluate 100 · 0) =
    .ok (some { status := .done, value := "6" })
  := by
  have hproper : laterCapture.Proper := by
    have hsum : Expr.Proper (.mk .unknown (.binary .add (.mk .unknown (.ident "x"))
        (.mk .unknown (.lit (.int32 1))))) := .binary _ _ (.ident _ (by decide)) (.lit _ _)
    refine .cases _ (.lit _ _) (by simp) ?_ (by simp) ?_ (by simp)
    · intro p _ _ hmem
      rcases mem_pair.mp hmem with heq | heq <;> cases heq
      · exact forall_mem_nil _
      · exact forall_mem_singleton.mpr (by decide)
    · intro p _ _ hmem
      rcases mem_pair.mp hmem with heq | heq <;> cases heq
      · exact forall_mem_singleton.mpr (.lit _ _)
      · exact forall_mem_singleton.mpr hsum
  have hfree : "x" ∉ laterCapture.free ∧ "y" ∉ laterCapture.free := by
    decide
  have hsame := evaluate_declaring hproper (by decide) (by decide) hfree (by decide) .unknown .unknown
    .unknown .unknown 100 0
  exact ⟨hproper, hfree.1, hsame.1, hsame.2, by cbv⟩

/-- A block declares the name again around the place that delivers its value.  The value goes to the variable of
the block, which has another one. -/
theorem evaluate_declaring_redeclared :
  (compile "var x = begin var x = 3 x + 1 end\nx").toOption.bind (evaluate 100 · 0) =
    some { status := .halted, value := "'error'#\x7b'message': 'cannot unify 3 with 4', 'name': 'UnificationError'\x7d",
           error := some "UnificationError" } ∧
  (compile "var y = begin var x = 3 x + 1 end\ny").toOption.bind (evaluate 100 · 0) =
    some { status := .done, value := "4" }
  := by
  constructor <;> cbv

end Program

end ActorLang
