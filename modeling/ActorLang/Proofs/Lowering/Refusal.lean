import ActorLang.Proofs.Lowering.Frames
import ActorLang.Proofs.Lowering.Parts
import ActorLang.Proofs.Surface.Faults

/-!
# What is refused

Lowering refuses a program if there is a fault in it.  The frames around a phrase tell its place.
Each construct visits its parts, at their places, until one of them is refused, and leaves the
frames as it found them, but for labels and aliases.
-/

namespace ActorLang.Lowering

open Kernel (Ident Operand BinaryPrim Stmt)
open List

variable {items : List ActorItem} {c : Context}

/-! ### Frames and places -/

/-- The place of what is lowered in a frame. -/
def JumpFrame.enter : JumpFrame → Place → Place
  | func _ hasResult _, _ => .func hasResult
  | barrier, _ => .outside
  | loop _ _, k => k.loop
  | final _, k => k
  | shadow, k => k

def placeIn (frames : List JumpFrame) : Place := frames.foldr JumpFrame.enter .outside

theorem loopPoint?_isSome (frames : List JumpFrame) :
  (loopPoint? frames).isSome = (placeIn frames).inLoop
  := by
  induction frames with
  | nil => rfl
  | cons frame _ ih =>
    cases frame with
    | func | barrier | loop => rfl
    | final | shadow =>
      rw [loopPoint?, Option.isSome_map]
      exact ih

theorem returnPoint?_hasResult (frames : List JumpFrame) :
  (returnPoint? frames).map (·.hasResult) = (placeIn frames).hasResult?
  := by
  induction frames with
  | nil => rfl
  | cons frame _ ih =>
    cases frame with
    | func | barrier => rfl
    | loop | final | shadow =>
      rw [returnPoint?, Option.map_map]
      exact ih

/-- The frames are the same, but for labels and aliases. -/
def SameKinds (frames frames' : List JumpFrame) : Prop :=
  frames'.map JumpFrame.enter = frames.map JumpFrame.enter

variable {frames frames' : List JumpFrame} {depth : Nat} {frame frame' : JumpFrame}
  {error : LowerError} {cause : LowerCause} {span : Span} {label o value : Option Phrase}
  {written clauses : List Clause} {otherwise final : Option Block} {last : Option (List Expr)}
  {bad : Place → LowerError → Prop} {alts catches : List Alternative} {form : Form}
  {into : Target → Lower Stmt}

theorem SameKinds.placeIn_eq (h : SameKinds frames frames') :
  placeIn frames' = placeIn frames
  := by
  have hfoldr (frames : List JumpFrame) : placeIn frames =
      (frames.map JumpFrame.enter).foldr (fun enter k => enter k) .outside := by
    rw [placeIn, foldr_map]
  rw [hfoldr, hfoldr, h]

theorem sameKinds_set (h : frames[depth]? = some frame) (hkind : frame'.enter = frame.enter) :
  SameKinds frames (frames.set depth frame')
  := by
  obtain ⟨hdepth, rfl⟩ := List.getElem?_eq_some_iff.mp h
  apply ext_getElem?
  intro i
  simp only [map_set, hkind, List.getElem?_set]
  split
  · subst i
    simp [hdepth]
  · rfl

/-! ### Computations -/

section Computations

variable {α β : Type} {x : Lower α} {f : α → Lower β}
variable {P Q : Place → LowerError → Prop}

theorem bind_eq_error_iff :
  (x >>= f) c = .error error ↔ x c = .error error ∨ ∃ a d, x c = .ok (a, d) ∧ f a d = .error error
  := by
  change (Except.bind (x c) fun p => f p.1 p.2) = _ ↔ _
  cases x c with
  | error => simp [Except.bind]
  | ok p =>
    obtain ⟨a, d⟩ := p
    simp [Except.bind]

/-- From the context, the computation is refused if there is something bad, with an error that is
bad.  Otherwise it keeps the kinds of the frames. -/
structure RefusedAt (c : Context) (x : Lower α) (bad : LowerError → Prop) : Prop where
  error : ∀ error, x c = .error error → bad error
  ok : ∀ a c', x c = .ok (a, c') → SameKinds c.frames c'.frames ∧ ∀ error, ¬ bad error

/-- The computation is refused where there is something bad at its place. -/
def Refused (x : Lower α) (bad : Place → LowerError → Prop) : Prop :=
  ∀ c, RefusedAt c x (bad (placeIn c.frames))

/-- The computation is not refused. -/
abbrev Accepted (x : Lower α) : Prop := Refused x fun _ _ => False

theorem RefusedAt.bind {P Q : LowerError → Prop} (hx : RefusedAt c x P)
    (hf : ∀ a c', x c = .ok (a, c') → RefusedAt c' (f a) Q) :
  RefusedAt c (x >>= f) fun error => P error ∨ Q error where
  error error h := by
    rcases bind_eq_error_iff.mp h with h | ⟨a, d, hd, h⟩
    · exact .inl (hx.error error h)
    · exact .inr ((hf a d hd).error error h)
  ok b c' h := by
    obtain ⟨a, d, hd, h⟩ := bind_eq_ok_iff.mp h
    obtain ⟨hkinds, hP⟩ := hx.ok a d hd
    obtain ⟨hkinds', hQ⟩ := (hf a d hd).ok b c' h
    refine ⟨hkinds'.trans hkinds, ?_⟩
    rintro error (h | h)
    · exact hP error h
    · exact hQ error h

theorem Refused.bind (hx : Refused x P) (hf : ∀ a, Refused (f a) Q) :
  Refused (x >>= f) fun k error => P k error ∨ Q k error
  := by
  intro c
  apply (hx c).bind
  intro a c' h
  rw [← ((hx c).ok a c' h).1.placeIn_eq]
  exact hf a c'

theorem RefusedAt.congr {P Q : LowerError → Prop} (hx : RefusedAt c x P) (hPQ : ∀ error, Q error ↔ P error := by simp) :
  RefusedAt c x Q
  := by
  obtain rfl : Q = P := by
    funext error
    exact propext (hPQ error)
  exact hx

theorem Refused.congr (hx : Refused x P) (hPQ : ∀ k error, Q k error ↔ P k error := by simp) :
  Refused x Q
  := fun c => (hx c).congr (hPQ _)

theorem Refused.of_accepted (hx : Accepted x) (hP : ∀ k error, ¬ P k error := by simp) :
  Refused x P
  := hx.congr fun k error => iff_false_intro (hP k error)

theorem Refused.after (hx : Accepted x) (hf : ∀ a, Refused (f a) Q) :
  Refused (x >>= f) Q
  := (Refused.bind hx hf).congr

theorem Refused.before (hx : Refused x P) (hf : ∀ a, Accepted (f a)) :
  Refused (x >>= f) P
  := (Refused.bind hx hf).congr

theorem RefusedAt.of_ok {a : α} {d : Context} (h : x c = .ok (a, d)) (hkinds : SameKinds c.frames d.frames) :
  RefusedAt c x fun _ => False where
  error _ herror := by cases h.symm.trans herror
  ok _ _ hok := by
    cases h.symm.trans hok
    exact ⟨hkinds, fun _ h => h⟩

theorem accepted_pure (a : α) :
  Accepted (pure a : Lower α)
  := fun _ => .of_ok rfl rfl

theorem Refused.done {g : α → β} (hx : Refused x P) :
  Refused (do return g (← x)) P
  := hx.before fun a => accepted_pure (g a)

theorem Refused.any {es es' : List Expr} (hx : Refused x (AnyOffends es)) (hf : ∀ a, Refused (f a) (AnyOffends es')) :
  Refused (x >>= f) (AnyOffends (es ++ es'))
  := (Refused.bind hx hf).congr

theorem refusedAt_fail {bad : LowerError → Prop} (h : bad ⟨cause, span⟩) :
  RefusedAt c (fail cause span : Lower α) bad
  := by
  constructor
  · rintro _ ⟨⟩
    exact h
  · rintro _ _ ⟨⟩

theorem accepted_freshNumber :
  Accepted freshNumber
  := fun _ => .of_ok rfl rfl

theorem accepted_freshTemp :
  Accepted freshTemp
  := accepted_freshNumber.done

theorem accepted_freshAnonymous :
  Accepted freshAnonymous
  := accepted_freshNumber.done

theorem inFrame_eq_error (h : inFrame frame x c = .error error) :
  x { c with frames := frame :: c.frames } = .error error
  := by
  rcases bind_eq_error_iff.mp h with h | ⟨_, _, hd, h⟩
  · cases h
  · cases hd
    rcases bind_eq_error_iff.mp h with h | ⟨_, _, -, h⟩
    · exact h
    · cases h

theorem Refused.inFrame (hx : Refused x P) (frame : JumpFrame) :
  Refused (inFrame frame x) fun k error => P (frame.enter k) error
  := by
  intro c
  have hinner := hx { c with frames := frame :: c.frames }
  constructor
  · intro error h
    exact hinner.error error (inFrame_eq_error h)
  · rintro ⟨a, _⟩ _ h
    obtain ⟨d, hd, -, rfl⟩ := inFrame_eq_ok h
    obtain ⟨hkinds, hgood⟩ := hinner.ok a d hd
    refine ⟨?_, hgood⟩
    rw [SameKinds, map_tail, hkinds]
    rfl

theorem Refused.get {g : Context → Lower α} (h : ∀ c, RefusedAt c (g c) (P (placeIn c.frames))) :
  Refused (get >>= g) P
  := by
  intro c
  exact ⟨(h c).error, (h c).ok⟩

end Computations

/-! ### Labels -/

section Labels

theorem accepted_returnLabel (depth : Nat) :
  Accepted (returnLabel depth)
  := by
  apply Refused.get
  intro c
  split
  · exact accepted_pure _ c
  · rename_i h
    exact .of_ok rfl (sameKinds_set h rfl)
  · exact accepted_freshNumber c

theorem accepted_resultAlias (depth : Nat) :
  Accepted (resultAlias depth)
  := by
  apply Refused.get
  intro c
  split
  · exact accepted_pure _ c
  · rename_i h
    exact .of_ok rfl (sameKinds_set h rfl)
  · exact accepted_pure _ c

theorem accepted_loopLabel (isBreak : Bool) (depth : Nat) :
  Accepted (loopLabel isBreak depth)
  := by
  apply Refused.get
  intro c
  split
  · rename_i h
    split
    · exact accepted_pure _ c
    · refine .of_ok rfl (sameKinds_set h ?_)
      cases isBreak with
      | true | false => rfl
  · exact accepted_freshNumber c

end Labels

/-! ### Patterns -/

section Patterns

theorem refused_exactPattern (cause : LowerCause) (p : Pattern) :
  Refused (exactPattern cause p) fun _ error => p.form.isExact = false ∧ error = ⟨cause, p.span⟩
  := by
  obtain ⟨span, form⟩ := p
  have hfail : Refused (fail cause span : Lower Kernel.FeaturePattern) fun _ error => error = ⟨cause, span⟩ := by
    intro c
    exact ⟨fun error h => by cases h; rfl, nofun⟩
  cases form with
  | lit value =>
    simp only [exactPattern, Pattern.form, PatternForm.isExact, Pattern.span]
    cases value.isFeature with
    | true => exact (accepted_pure _).congr
    | false => exact hfail.congr
  | escaped =>
    exact (accepted_pure _).congr (by simp [Pattern.form, PatternForm.isExact])
  | _ =>
    exact hfail.congr (by simp [Pattern.form, PatternForm.isExact, Pattern.span])

theorem refused_labelPattern (label : Option Pattern) :
  Refused (labelPattern label) fun _ error => ∃ q, label = some q ∧ q.form.isExact = false ∧
    error = ⟨.patternLabel, q.span⟩
  := by
  cases label with
  | none => exact (accepted_pure _).congr
  | some p => exact (refused_exactPattern _ p).done.congr

theorem refused_features (fields : List (Pattern × Pattern)) :
  Refused (features fields) fun _ error => ∃ q ∈ fields.map (·.1), q.form.isExact = false ∧
    error = ⟨.patternFeature, q.span⟩
  := by
  induction fields with
  | nil => exact (accepted_pure _).congr
  | cons field _ ih =>
    rw [features, mapM_cons]
    exact ((refused_exactPattern .patternFeature field.1).bind fun _ => ih.done).congr (by simp)

mutual

theorem refused_patternLeaf :
  ∀ p : Pattern, Refused (patternLeaf p) fun _ error => p.Offends error
  | .mk span form => refused_formLeaf span form

theorem refused_formLeaf (span : Span) :
  ∀ form : PatternForm, Refused (formLeaf form) fun _ error => (Pattern.mk span form).Offends error
  | .lit _ | .ident _ | .escaped _ => .of_accepted (accepted_pure _) fun _ _ => Pattern.not_offends rfl rfl rfl
  | .wildcard => .of_accepted (accepted_freshAnonymous.done) fun _ _ => Pattern.not_offends rfl rfl rfl
  | .record label fields isPartial => by
    refine ((refused_features fields).bind fun _ => Refused.after accepted_freshTemp fun _ =>
      (refused_labelPattern label).bind fun _ =>
        (refused_fieldLeaves fields).done).congr ?_
    intro k _
    rw [Pattern.offends_iff]
    exact or_left_comm
  | .tuple label values isPartial => by
    refine (Refused.after accepted_freshTemp fun _ => (refused_labelPattern label).bind fun _ =>
        (refused_valueLeaves values).done).congr ?_
    intro k _
    rw [Pattern.offends_iff]
    simp [Pattern.form, PatternForm.label?, PatternForm.features, PatternForm.parts]

theorem refused_valueLeaves :
  ∀ values : List Pattern, Refused (valueLeaves values) fun _ error =>
    ∃ q ∈ values, q.Offends error
  | [] => by
    exact (accepted_pure _).congr
  | p :: rest => by
    exact ((refused_patternLeaf p).bind fun _ =>
      (refused_valueLeaves rest).done).congr

theorem refused_fieldLeaves :
  ∀ fields : List (Pattern × Pattern), Refused (fieldLeaves fields) fun _ error =>
    ∃ q ∈ fields.map (·.2), q.Offends error
  | [] => by
    exact (accepted_pure _).congr
  | (f, p) :: rest => by
    exact ((refused_patternLeaf p).bind fun _ =>
      (refused_fieldLeaves rest).done).congr (by simp [or_and_right, exists_or])

end

theorem refused_pattern (p : Pattern) :
  Refused p.lower fun _ error => p.Offends error
  := by
  obtain ⟨_, form⟩ := p
  cases form with
  | wildcard =>
    exact .of_accepted (accepted_freshAnonymous.done) fun _ _ => Pattern.not_offends rfl rfl rfl
  | record label fields =>
    refine ((refused_features fields).bind fun _ => (refused_labelPattern label).bind fun _ =>
      (refused_fieldLeaves fields).done).congr ?_
    intro k _
    rw [Pattern.offends_iff]
    exact or_left_comm
  | tuple label values =>
    refine ((refused_labelPattern label).bind fun _ =>
      (refused_valueLeaves values).done).congr ?_
    intro k _
    rw [Pattern.offends_iff]
    simp [Pattern.form, PatternForm.label?, PatternForm.features, PatternForm.parts]
  | _ =>
    exact .of_accepted (accepted_pure _) fun _ _ => Pattern.not_offends rfl rfl rfl

end Patterns

/-! ### Phrases -/

/-- The phrase is refused if there is a fault in the expression, and is an operand only if there
cannot be one. -/
structure Phrase.Judges (p : Phrase) (e : Expr) : Prop where
  into : ∀ target, Refused (p.into target) (AnyOffends [e])
  atom : ∀ arg, p.atom? = some arg → ∀ k error, ¬ AnyOffends [e] k error

/-- The sentences of the block are refused as these expressions. -/
def Block.Judges (b : Block) (es : List Expr) : Prop := Forall₂ Phrase.Judges b.sentences es

section Phrases

variable {p q : Phrase} {e e' : Expr} {ps : List Phrase} {es : List Expr}
variable {b : Block}

theorem refused_operand (h : p.Judges e) :
  Refused p.operand (AnyOffends [e])
  := by
  cases hatom : p.atom? with
  | some arg =>
    simp only [Phrase.operand, hatom]
    exact .of_accepted (accepted_pure _) (h.atom arg hatom)
  | none =>
    simp only [Phrase.operand, hatom]
    exact .after accepted_freshTemp fun _ => (h.into _).done

theorem refused_operands (h : Forall₂ Phrase.Judges ps es) :
  Refused (operands ps) (AnyOffends es)
  := by
  induction h with
  | nil => exact .of_accepted (accepted_pure _)
  | cons hp _ ih => exact (refused_operand hp).any fun _ => ih.done

theorem refused_optionalOperand {o' : Option Expr} (h : Option.Rel Phrase.Judges o o') :
  Refused (optionalOperand o) (AnyOffends o'.toList)
  := by
  cases h with
  | none => exact .of_accepted (accepted_pure _)
  | some hp => exact (refused_operand hp).done

theorem accepted_targetIdent (target : Target) :
  Accepted (targetIdent target)
  := by
  cases target with
  | ident => exact accepted_pure _
  | discard => exact accepted_freshTemp.done

theorem accepted_deliver (setup : Setup) (target : Target) (stmt : Ident → Stmt) :
  Accepted (deliver setup target stmt)
  := (accepted_targetIdent target).done

theorem refused_inOrder (h : Forall₂ Phrase.Judges ps es) (target : Target) :
  Refused (inOrder ps target) (AnyOffends es)
  := by
  induction h with
  | nil => exact .of_accepted (accepted_pure _)
  | cons hp hrest ih =>
    cases hrest with
    | nil => exact (hp.into target).done
    | cons _ _ => exact (hp.into .discard).any fun _ => ih.done

theorem refused_into (h : b.Judges es) (target : Target) :
  Refused (b.into target) (AnyOffends es)
  := (refused_inOrder h target).done

theorem refused_initialValues {decls : List (Ident × Phrase)} (h : Forall₂ (fun d e => d.2.Judges e) decls es) :
  Refused (initialValues decls) (AnyOffends es)
  := by
  induction h with
  | nil => exact .of_accepted (accepted_pure _)
  | cons hd _ ih => exact (hd.into _).any fun _ => ih.done

/-! ### Expressions -/

theorem refused_labelled {written : Option Expr} {f : Option Operand × Setup → List Operand × Setup → Lower Stmt}
    (hlabel : Option.Rel Phrase.Judges label written) (hvalues : Forall₂ Phrase.Judges ps es)
    (hf : ∀ a b, Accepted (f a b)) :
  Refused (optionalOperand label >>= fun a => operands ps >>= f a) (AnyOffends (written.toList ++ es))
  := (refused_optionalOperand hlabel).any fun a => (refused_operands hvalues).before (hf a)

theorem refused_two {f : Operand × Setup → Operand × Setup → Lower Stmt} (hp : p.Judges e)
    (hq : q.Judges e') (hf : ∀ a b, Accepted (f a b)) :
  Refused (p.operand >>= fun a => q.operand >>= f a) (AnyOffends [e, e'])
  := (refused_operand hp).any fun a => (refused_operand hq).before (hf a)

theorem refused_many {f : Operand × Setup → List Operand × Setup → Lower Stmt} (hp : p.Judges e)
    (hps : Forall₂ Phrase.Judges ps es) (hf : ∀ a b, Accepted (f a b)) :
  Refused (p.operand >>= fun a => operands ps >>= f a) (AnyOffends (e :: es))
  := (refused_operand hp).any fun a => (refused_operands hps).before (hf a)

theorem refused_unify (hp : p.Judges e) (hq : q.Judges e') :
  Refused (unify p q) (AnyOffends ([e] ++ [e']))
  := by
  rw [unify]
  split
  · rename_i name hatom
    refine (hq.into _).congr fun k error => ?_
    rw [anyOffends_append, or_iff_right (hp.atom _ hatom k error)]
  · rename_i name hatom _
    refine (hp.into _).congr fun k error => ?_
    rw [anyOffends_append, or_iff_left (hq.atom _ hatom k error)]
  · exact .after accepted_freshTemp fun _ => (hp.into _).any fun _ => (hq.into _).done

theorem refused_procedure (name : Option Ident) (params : List Ident) (h : b.Judges es)
    (hasResult : Bool) (target : Target) :
  Refused (procedure name params b hasResult target) fun _ => AnyOffends es (.func hasResult)
  := by
  apply ((refused_into h _).inFrame _).before
  rintro ⟨_, _⟩
  cases name with
  | some => exact accepted_pure _
  | none => exact accepted_deliver _ _ _

/-! ### Alternatives -/

theorem refused_conditional {branches : List (Phrase × Block)} {written : List Branch}
    (hbranches : Forall₂ (fun b w => ∃ cond body, w = .mk cond body ∧ b.1.Judges cond ∧
      b.2.Judges body) branches written)
    (hlast : Option.Rel Block.Judges otherwise last) (target : Target) :
  Refused (conditional branches otherwise target) (AnyOffends (written.flatMap Branch.exprs ++ last.toList.flatten))
  := by
  induction hbranches with
  | nil =>
    cases hlast with
    | none => exact .of_accepted (accepted_pure _)
    | some h => exact (refused_into h target).congr
  | cons hb _ ih =>
    obtain ⟨_, _, rfl, hcond, hbody⟩ := hb
    exact ((refused_operand hcond).any fun _ => (refused_into hbody target).any fun _ =>
      ih.done).congr (by simp [Branch.exprs])

/-- The alternative is refused as the clause. -/
structure Alternative.Judges (a : Alternative) (c : Clause) : Prop where
  pattern : a.pattern = c.pattern
  guard : Option.Rel Phrase.Judges a.guard c.guard
  body : a.body.Judges c.body

theorem refused_alternatives {a : Operand} {f : Fallback}
    (hfallback : ∀ target, Refused (f.into target) bad) (h : Forall₂ Alternative.Judges alts clauses)
    (target : Target) :
  Refused (alternatives a f alts target) fun k error =>
    (∃ c ∈ clauses, c.Offends k error) ∨ bad k error
  := by
  induction h generalizing target with
  | nil => exact (hfallback target).congr
  | @cons alt clause alts clauses halt hrest ih =>
    obtain ⟨pattern, guard, body⟩ := clause
    have hpattern := refused_pattern pattern
    have hguard := refused_optionalOperand halt.guard
    have hbody := refused_into halt.body target
    rw [show pattern = alt.pattern from halt.pattern.symm] at hpattern
    rw [alternatives_cons]
    refine (hpattern.bind (Q := fun k error => AnyOffends guard.toList k error ∨
      AnyOffends body k error ∨ (∃ c ∈ clauses, c.Offends k error) ∨ bad k error) ?_).congr ?_
    · rintro ⟨_, _⟩
      dsimp only
      split
      case isTrue hdirect =>
        obtain rfl : alts = [] := isEmpty_iff.mp (Bool.and_eq_true_iff.mp hdirect).1
        cases hrest
        exact hguard.bind fun _ => hbody.bind fun _ => (hfallback target).done.congr
      case isFalse =>
        have hleft : Refused (leftOver a f alts target) fun k error =>
            (∃ c ∈ clauses, c.Offends k error) ∨ bad k error := by
          cases target with
          | ident => exact ((ih _).inFrame .shadow).done
          | discard => exact (ih _).done
        exact Refused.after accepted_freshTemp fun _ => hguard.bind fun _ => hbody.bind fun _ => hleft.done
    · intro k _
      simp only [mem_cons, exists_eq_or_imp, Clause.Offends, Clause.exprs,
        anyOffends_append, halt.pattern, or_assoc]

theorem refused_cases {clauses : List Alternative} (hp : p.Judges e)
    (hclauses : Forall₂ Alternative.Judges clauses written)
    (hlast : Option.Rel Block.Judges otherwise last) (target : Target) :
  Refused (cases p clauses otherwise target) fun k error =>
    AnyOffends [e] k error ∨ (∃ c ∈ written, c.Offends k error) ∨ AnyOffends last.toList.flatten k error
  := by
  cases hlast with
  | none =>
    exact ((refused_operand hp).bind fun _ =>
      (refused_alternatives (fun _ => accepted_pure _) hclauses target).done).congr
  | some h =>
    exact ((refused_operand hp).bind fun _ =>
      (refused_alternatives (f := .block _) (refused_into h) hclauses target).done).congr

/-! ### Loops -/

theorem refused_iteration (h : b.Judges es) (again : Ident) :
  Refused (iteration b again) fun k => AnyOffends es k.loop
  := ((refused_into h .discard).inFrame _).done

/-! ### Attempts -/

theorem refused_guarded (h : b.Judges es) (hcatches : Forall₂ Alternative.Judges catches written) (final : Option Ident)
    (target : Target) :
  Refused (guarded b catches final target) fun k error =>
    AnyOffends es k error ∨ ∃ c ∈ written, c.Offends k error
  := by
  have hhandler (caught : Ident) := refused_alternatives (a := .ident caught) (f := .rethrow caught)
    (fun _ => accepted_pure _) hcatches target
  apply (refused_into h target).bind fun _ => Refused.after accepted_freshTemp fun caught => ?_
  cases final with
  | none =>
    exact ((hhandler caught).done).congr
  | some =>
    cases hcatches with
    | nil => exact .of_accepted (accepted_pure _) (by simp)
    | cons _ _ =>
      exact ((hhandler caught).before fun _ => accepted_freshTemp.done).congr

theorem refused_attempt (h : b.Judges es) (hcatches : Forall₂ Alternative.Judges catches written)
    (hlast : Option.Rel Block.Judges final last) (target : Target) :
  Refused (attempt b catches final target) fun k error =>
    AnyOffends es k error ∨ (∃ c ∈ written, c.Offends k error) ∨ AnyOffends last.toList.flatten k error
  := by
  cases hlast with
  | none =>
    exact (refused_guarded h hcatches none target).congr
  | some hlast =>
    have hguarded (final : Ident) : Refused
        (inFrame (.final final) (guarded b catches (some final) target)) fun k error =>
          AnyOffends es k error ∨ ∃ c ∈ written, c.Offends k error :=
      (refused_guarded h hcatches (some final) target).inFrame (.final final)
    exact (Refused.after accepted_freshTemp fun final => (hguarded final).bind fun _ =>
      (refused_into hlast .discard).done).congr (by simp [or_assoc])

/-! ### Jumps -/

theorem refused_leaveLoop (isBreak : Bool) (span : Span) :
  Refused (leaveLoop isBreak span) fun k error => k.inLoop = false ∧
    error = ⟨if isBreak then .breakOutsideLoop else .continueOutsideLoop, span⟩
  := by
  apply Refused.get
  intro c
  have hplace := loopPoint?_isSome c.frames
  rcases hpoint : loopPoint? c.frames with _ | ⟨_, depth⟩
  · rw [hpoint] at hplace
    exact refusedAt_fail ⟨hplace.symm, rfl⟩
  · rw [hpoint] at hplace
    exact (((accepted_loopLabel isBreak depth).done) c).congr (by simp [← hplace])

theorem refused_returnValue {written : Option Expr} (h : Option.Rel Phrase.Judges value written) :
  Refused (returnValue value span) fun k error =>
    (∃ cause, (Form.ret written).fault? k = some cause ∧ error = ⟨cause, span⟩) ∨ AnyOffends written.toList k error
  := by
  apply Refused.get
  intro c
  have hplace := returnPoint?_hasResult c.frames
  cases hpoint : returnPoint? c.frames with
  | none =>
    rw [hpoint] at hplace
    apply refusedAt_fail
    refine .inl ⟨_, ?_, rfl⟩
    rw [Form.fault?, ← hplace]
    rfl
  | some point =>
    rw [hpoint] at hplace
    have hlabel (delivered : List Stmt) : Accepted (do
        let label ← returnLabel point.depth
        return Stmt.ofList (delivered ++ point.finals.map .call ++ [.jumpThrow label])) :=
      (accepted_returnLabel _).done
    cases h with
    | none =>
      exact (hlabel [] c).congr (by simp [Form.fault?, ← hplace])
    | @some p e h =>
      have hresult : (Form.ret (some e)).fault? (placeIn c.frames) =
          if point.hasResult then none else some .returnValueInProc := by
        simp only [Form.fault?, ← hplace, Option.map_some]
        cases point.hasResult with
        | true | false => rfl
      have hinto (result : Ident) := (h.into (.ident result)).before fun stmt =>
        Refused.after (accepted_pure [stmt]) hlabel
      dsimp only
      rw [hresult]
      cases point.hasResult with
      | false =>
        exact refusedAt_fail (.inl ⟨_, rfl, rfl⟩)
      | true =>
        simp only [Bool.not_true, Bool.false_eq_true, if_false]
        split
        · exact (Refused.after (accepted_resultAlias point.depth) hinto c).congr
        · exact (Refused.after (accepted_pure Kernel.resultIdent) hinto c).congr

/-! ### Actors -/

theorem refused_handler (h : Forall₂ Alternative.Judges alts clauses) (kind : HandlerKind) :
  Refused (handler alts kind) fun _ error => ∃ c ∈ clauses, c.Offends (.func (kind = .ask)) error
  := by
  have hclauses (name : String) := refused_alternatives (a := .ident Kernel.messageIdent) (f := .notHandled name)
    (fun _ => accepted_freshTemp.before fun _ => accepted_pure _) h
  exact (((hclauses _ _).inFrame _).done).congr (by simp [JumpFrame.enter])

end Phrases

/-! ### Programs -/

def handlersOf (kind : HandlerKind) (items : List ActorItem) : List Clause :=
  items.filterMap fun
    | .handler k clause => if k = kind then some clause else none
    | .sentence _ => none

theorem offends_actor_iff {k : Place} {name : String} {params : List String} :
  (Expr.mk span (.actor name params items)).Offends k error ↔ AnyOffends (ActorItem.sentences items) .outside error ∨
      (∃ c ∈ handlersOf .ask items, c.Offends (.func true) error) ∨
        ∃ c ∈ handlersOf .tell items, c.Offends (.func false) error
  := by
  have hitems : (∃ p ∈ items.filterMap ActorItem.pattern?, p.Offends error) ∨
      (∃ q ∈ items.flatMap ActorItem.parts, q.2.Offends q.1 error) ↔
        AnyOffends (ActorItem.sentences items) .outside error ∨
          (∃ c ∈ handlersOf .ask items, c.Offends (.func true) error) ∨
            ∃ c ∈ handlersOf .tell items, c.Offends (.func false) error := by
    induction items with
    | nil => simp [ActorItem.sentences, handlersOf]
    | cons item _ ih =>
      simp only [flatMap_cons, mem_append, or_and_right, exists_or]
      cases item with
      | sentence e =>
        have hsentence : (∃ q ∈ (ActorItem.sentence e).parts, q.2.Offends q.1 error) ↔ e.Offends .outside error := by
          simp [ActorItem.parts]
        rw [hsentence, filterMap_cons_none rfl, or_left_comm, ih]
        exact or_assoc.symm.trans (or_congr_left anyOffends_cons.symm)
      | handler kind clause =>
        have hclause : (∃ q ∈ (ActorItem.handler kind clause).parts, q.2.Offends q.1 error) ↔
            AnyOffends clause.exprs (.func (kind = .ask)) error := exists_map_offends_iff
        simp only [hclause, filterMap_cons, ActorItem.pattern?, mem_cons, exists_eq_or_imp]
        rw [or_or_or_comm, ih]
        have hmem (k : Place) (l : List Clause) :
            clause.Offends k error ∨ (∃ c ∈ l, c.Offends k error) ↔ ∃ c ∈ clause :: l, c.Offends k error := by
          simp
        cases kind with
        | ask => exact or_left_comm.trans (or_congr_right (or_assoc.symm.trans (or_congr_left (hmem (.func true) _))))
        | tell => exact or_left_comm.trans (or_congr_right (or_left_comm.trans (or_congr_right (hmem (.func false) _))))
  rw [Expr.offends_iff, ← hitems]
  exact or_iff_right (by simp [Expr.form, Form.fault?])

/-- The lowering of an expression judges it, also as the start of a path. -/
structure Judged (e : Expr) : Prop where
  whole : (ofExpr e).Judges e
  path : ∀ path, (alongPath e path).1.Judges e

theorem judged_of_whole (h : (ofForm span form).Judges (.mk span form))
    (hform : ∀ rec feature, form ≠ .select rec feature := by simp) :
  Judged (.mk span form)
  := by
  refine ⟨h, fun path => ?_⟩
  rw [alongPath_eq hform]
  exact h

theorem judged_atom {arg : Operand} (h : ofForm span form = atom arg)
    (hform : ∀ rec feature, form ≠ .select rec feature)
    (hoffends : ∀ k error, ¬ (Expr.mk span form).Offends k error) :
  Judged (.mk span form)
  := by
  refine judged_of_whole ?_ hform
  rw [h]
  refine ⟨fun target => ?_, fun _ _ => by simpa using hoffends⟩
  cases target with
  | ident | discard => exact .of_accepted (accepted_pure _) (by simpa using hoffends)

theorem judged_of_into (h : ofForm span form = { into })
    (hoffends : ∀ k error, (Expr.mk span form).Offends k error ↔ bad k error)
    (hinto : ∀ target, Refused (into target) bad)
    (hform : ∀ rec feature, form ≠ .select rec feature := by simp) :
  Judged (.mk span form)
  := by
  refine judged_of_whole ?_ hform
  rw [h]
  exact ⟨fun target => (hinto target).congr (by simpa using hoffends), by simp⟩

theorem judged_of_parts {w : List Expr} {place : Place → Place} (h : ofForm span form = { into })
    (hinto : ∀ target, Refused (into target) fun k => AnyOffends w (place k))
    (hparts : ∀ k, form.parts k = w.map (place k, ·) := by intro k; rfl)
    (hfault : ∀ k, form.fault? k = none := by intro k; rfl)
    (hpatterns : form.patterns = [] := by rfl)
    (hform : ∀ rec feature, form ≠ .select rec feature := by simp) :
  Judged (.mk span form)
  := judged_of_into h (fun k _ => Expr.offends_iff_anyOffends (hfault k) hpatterns (hparts k)) hinto hform

theorem offends_iff_leave
    (hpatterns : form.patterns = []) (hfault : ∀ k, form.fault? k = if k.inLoop then none else some cause)
    (hparts : ∀ k, form.parts k = [].map (k, ·)) (k : Place) (error : LowerError) :
  (Expr.mk span form).Offends k error ↔ k.inLoop = false ∧ error = ⟨cause, span⟩
  := by
  rw [Expr.offends_iff_jump hpatterns (hparts k), hfault]
  cases k.inLoop <;> simp

theorem judged_select {rec feature : Expr} (hrec : Judged rec) (hfeature : Judged feature) :
  Judged (.mk span (.select rec feature))
  := by
  have hoffends (k : Place) (error : LowerError) :
      AnyOffends [.mk span (.select rec feature)] k error ↔ AnyOffends [rec, feature] k error := by
    have hparts : (Form.select rec feature).parts k = [rec, feature].map (k, ·) := rfl
    rw [anyOffends_cons, Expr.offends_iff_anyOffends rfl rfl hparts]
    simp
  have hwhole : (ofForm span (.select rec feature)).Judges (.mk span (.select rec feature)) :=
    ⟨fun target => (refused_two hrec.whole hfeature.whole fun _ _ => accepted_deliver _ _ _).congr hoffends,
      nofun⟩
  refine ⟨hwhole, fun path => ?_⟩
  obtain ⟨featureSpan, form⟩ := feature
  cases form with
  | lit value =>
    have hrec' (k : Place) (error : LowerError) :
        AnyOffends [.mk span (.select rec (.mk featureSpan (.lit value)))] k error ↔ AnyOffends [rec] k error := by
      have hfeature : ¬ (Expr.mk featureSpan (.lit value)).Offends k error := Expr.not_offends rfl rfl rfl
      rw [hoffends]
      simp [hfeature]
    have hpath := hrec.path (.lit value :: path)
    refine ⟨fun target => (hpath.into target).congr hrec', fun arg harg k error => ?_⟩
    rw [hrec']
    exact hpath.atom arg harg k error
  | _ =>
    rw [alongPath]
    · exact hwhole
    · simp

mutual

theorem judged :
  ∀ e : Expr, Judged e
  | .mk span form => judged_form span form

theorem judged_form (span : Span) :
  ∀ form : Form, Judged (.mk span form)
  | .lit _ | .ident _ => judged_atom rfl (by simp) fun _ _ => Expr.not_offends rfl rfl rfl
  | .record label fields =>
    judged_of_parts rfl fun _ => refused_labelled (rel_ofOption label) (rel_flatMap (forall₂_ofFields fields)
      fun _ _ hf => .cons hf.1 (.cons hf.2 .nil)) fun _ _ => accepted_deliver _ _ _
  | .tuple label values =>
    judged_of_parts rfl fun _ => refused_labelled (rel_ofOption label) (forall₂_ofList values)
      fun _ _ => accepted_deliver _ _ _
  | .binary op left right => by
    have hleft := (judged left).whole
    have hright := (judged right).whole
    apply judged_of_parts (w := [left, right]) rfl
    intro target
    cases op.prim? with
    | some => exact refused_two hleft hright fun _ _ => accepted_deliver _ _ _
    | none => exact (refused_operand hleft).any fun _ => (hright.into target).done
  | .unary .not e | .throw e =>
    judged_of_parts rfl fun _ => (refused_operand (judged e).whole).done
  | .unary .negate e | .content e =>
    judged_of_parts rfl fun _ => (refused_operand (judged e).whole).before fun _ => accepted_deliver _ _ _
  | .select rec feature => judged_select (judged rec) (judged feature)
  | .apply proc args =>
    judged_of_parts rfl (fun _ => refused_many (judged proc).whole (forall₂_ofList args) fun _ _ => accepted_pure _)
  | .selectApply rec name args =>
    judged_of_parts rfl (fun _ => refused_many ((judged rec).path _) (forall₂_ofList args) fun _ _ => accepted_pure _)
  | .var decls =>
    judged_of_parts rfl (fun _ => (refused_initialValues (forall₂_ofDecls decls)).done)
  | .unify left right =>
    judged_of_parts rfl (fun _ => refused_unify (judged left).whole (judged right).whole)
  | .assign cell value =>
    judged_of_parts rfl (fun _ => refused_two (judged cell).whole (judged value).whole fun _ _ => accepted_pure _)
  | .func name params body =>
    judged_of_parts rfl (refused_procedure (b := block body (ofList body)) name params (forall₂_ofList body) true)
  | .proc name params body =>
    judged_of_parts rfl (refused_procedure (b := block body (ofList body)) name params (forall₂_ofList body) false)
  | .block body =>
    judged_of_parts rfl (refused_into (forall₂_ofList body))
  | .ifElse branches otherwise =>
    judged_of_parts rfl (refused_conditional (forall₂_ofBranches branches) (rel_ofOtherwise otherwise))
  | .cases arg clauses otherwise =>
    judged_of_into rfl (fun _ _ => Expr.offends_iff_clauses rfl rfl rfl)
      (refused_cases (judged arg).whole (forall₂_ofClauses clauses) (rel_ofOtherwise otherwise))
  | .whileLoop cond body =>
    judged_of_into rfl (fun _ _ => Expr.offends_iff_loop rfl rfl rfl)
      (fun _ => (((judged cond).whole.into _).inFrame .shadow).bind fun _ => .after accepted_freshTemp fun _ =>
        (refused_iteration (b := block body (ofList body)) (forall₂_ofList body) _).done)
  | .forLoop name iter body =>
    judged_of_into rfl (fun _ _ => Expr.offends_iff_loop rfl rfl rfl)
      (fun _ => ((judged iter).whole.into _).bind fun _ => (refused_iteration (b := block body (ofList body)) (forall₂_ofList body) _).done)
  | .attempt body catches final =>
    judged_of_into rfl (fun _ _ => Expr.offends_iff_clauses rfl rfl rfl)
      (refused_attempt (forall₂_ofList body) (forall₂_ofClauses catches) (rel_ofOtherwise final))
  | .ret value =>
    judged_of_into rfl (fun _ _ => Expr.offends_iff_jump rfl rfl) (fun _ => refused_returnValue (rel_ofOption value))
  | .brk => judged_of_into rfl (offends_iff_leave rfl (fun _ => rfl) fun _ => rfl) fun _ => refused_leaveLoop true span
  | .cont => judged_of_into rfl (offends_iff_leave rfl (fun _ => rfl) fun _ => rfl) fun _ => refused_leaveLoop false span
  | .skip =>
    judged_of_into rfl (fun _ _ => iff_false_intro (Expr.not_offends rfl rfl rfl)) (fun _ => accepted_pure _)
  | .actor name params items =>
    judged_of_into rfl (fun _ _ => offends_actor_iff)
      (fun _ => .after accepted_freshTemp fun _ => .after accepted_freshTemp fun _ =>
        ((refused_inOrder (forall₂_ofSentences items) .discard).inFrame .barrier).bind fun _ =>
          (refused_handler (forall₂_ofHandlers .ask items) .ask).bind fun _ =>
            (refused_handler (forall₂_ofHandlers .tell items) .tell).done)

theorem forall₂_ofList :
  ∀ es : List Expr, Forall₂ Phrase.Judges (ofList es) es
  | [] => .nil
  | e :: rest => .cons (judged e).whole (forall₂_ofList rest)

theorem rel_ofOption :
  ∀ o : Option Expr, Option.Rel Phrase.Judges (ofOption o) o
  | none => .none
  | some e => .some (judged e).whole

theorem rel_ofOtherwise :
  ∀ o : Option (List Expr), Option.Rel Block.Judges (ofOtherwise o) o
  | none => .none
  | some body => .some (forall₂_ofList body)

theorem forall₂_ofFields :
  ∀ fields : List (Expr × Expr), Forall₂ (fun f g => f.1.Judges g.1 ∧ f.2.Judges g.2) (ofFields fields) fields
  | [] => .nil
  | (feature, value) :: rest =>
    .cons ⟨(judged feature).whole, (judged value).whole⟩ (forall₂_ofFields rest)

theorem forall₂_ofDecls :
  ∀ decls : List Decl, Forall₂ (fun d e => d.2.Judges e) (ofDecls decls) (decls.filterMap Decl.value?)
  | [] => .nil
  | .mk _ (some value) :: rest => .cons (judged value).whole (forall₂_ofDecls rest)
  | .mk _ none :: rest => forall₂_ofDecls rest

theorem forall₂_ofBranches :
  ∀ branches : List Branch, Forall₂ (fun b w => ∃ cond body, w = .mk cond body ∧ b.1.Judges cond ∧ b.2.Judges body)
      (ofBranches branches) branches
  | [] => .nil
  | .mk cond body :: rest =>
    .cons ⟨cond, body, rfl, (judged cond).whole, forall₂_ofList body⟩ (forall₂_ofBranches rest)

theorem forall₂_ofClauses :
  ∀ clauses : List Clause, Forall₂ Alternative.Judges (ofClauses clauses) clauses
  | [] => .nil
  | .mk _ guard body :: rest =>
    .cons ⟨rfl, rel_ofOption guard, forall₂_ofList body⟩ (forall₂_ofClauses rest)

theorem forall₂_ofSentences :
  ∀ items : List ActorItem, Forall₂ Phrase.Judges (ofSentences items) (ActorItem.sentences items)
  | [] => .nil
  | .sentence e :: rest => .cons (judged e).whole (forall₂_ofSentences rest)
  | .handler _ _ :: rest => forall₂_ofSentences rest

theorem forall₂_ofHandlers (kind : HandlerKind) :
  ∀ items : List ActorItem, Forall₂ Alternative.Judges (ofHandlers kind items) (handlersOf kind items)
  | [] => .nil
  | .sentence _ :: rest => forall₂_ofHandlers kind rest
  | .handler k (.mk _ guard body) :: rest => by
    have hrest := forall₂_ofHandlers kind rest
    rw [ofHandlers, handlersOf, filterMap_cons]
    dsimp only
    split
    · exact .cons ⟨rfl, rel_ofOption guard, forall₂_ofList body⟩ hrest
    · exact hrest

end

end ActorLang.Lowering

namespace ActorLang

open Lowering

/-- A program is refused if and only if something in it is at fault: a `break` or `continue`
without a loop around it in the same function, handler or start of an actor, a `return` outside of
all functions and handlers, one with a value where there is no result, or a label or feature of a
pattern that is not known in advance.  The error tells what it is, and where. -/
theorem Program.lower_refused_iff (p : Program) (target : Target) :
  ((∃ error, p.lower target = .error error) ↔ ∃ error, p.Offends error) ∧
    ∀ error, p.lower target = .error error → p.Offends error
  := by
  have hrefused : RefusedAt {} ((block p.body (ofList p.body)).into target) p.Offends :=
    refused_into (b := block p.body (ofList p.body)) (forall₂_ofList p.body) target {}
  have herror (error : LowerError) (h : p.lower target = .error error) : p.Offends error := by
    apply hrefused.error
    rcases hrun : (block p.body (ofList p.body)).into target {} with e | ⟨s, c⟩
    · rw [Program.lower, StateT.run', hrun] at h
      cases h
      rfl
    · rw [Program.lower, StateT.run', hrun] at h
      cases h
  refine ⟨⟨fun ⟨error, h⟩ => ⟨error, herror error h⟩, ?_⟩, herror⟩
  rintro ⟨error, h⟩
  rcases hrun : (block p.body (ofList p.body)).into target {} with e | ⟨s, c⟩
  · use e
    rw [Program.lower, StateT.run', hrun]
    rfl
  · cases (hrefused.ok s c hrun).2 error h

/-- The condition of a loop does not stand in it. -/
example (cond loop : Span) (target : Target) :
  (Program.mk [.mk loop (.whileLoop (.mk cond .brk) [])]).lower target = .error ⟨.breakOutsideLoop, cond⟩
  := rfl

end ActorLang
