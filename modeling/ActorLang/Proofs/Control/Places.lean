import ActorLang.Proofs.Control.Steady
import ActorLang.Proofs.Lowering.Frames

/-!
# Where phrases are lowered

A phrase is lowered inside of frames, of which some get their labels only later.  Its statement
`Keeps` these frames and names: it keeps the discipline wherever the completed frames say what names
stand for, which labels can be reached and what is due.  `Sound` follows the parts of a computation
that lowers.
-/

namespace ActorLang

open Kernel (Ident Operand Stmt resultIdent)
open List

variable {Λ Λ' : Labels} {label onBreak onContinue : Option Nat} {due d : Due} {n depth k : Nat}
  {x y t : Ident} {frame frame' : JumpFrame} {finals old' old names F F' reads : List Ident}
  {hasResult : Bool} {c c' : Context} {target : Target}

namespace Control

namespace Labels

theorem le_refl (Λ : Labels) :
  Λ ≤ Λ
  := fun _ _ h => h

/-- The labels with a catch for a label that may be in use. -/
def setOption (Λ : Labels) (label : Option Nat) (due : Due) : Labels :=
  match label with
  | some n => Λ.set n due
  | .none => Λ

theorem le_setOption (h : ∀ n ∈ label.toList, Λ n = .none) (due : Due) :
  Λ ≤ Λ.setOption label due
  := by
  cases label with
  | none => exact le_refl Λ
  | some =>
    intro m d hm
    rw [setOption, set, if_neg]
    · exact hm
    · rintro rfl
      rw [h m (by simp)] at hm
      cases hm

theorem eq_or_mem_of_setOption (h : Λ.setOption label due n = some d) :
  Λ n = some d ∨ n ∈ label.toList
  := by
  cases label with
  | none => exact .inl h
  | some =>
    rw [setOption, set] at h
    split at h
    case isTrue heq => exact .inr (by simp [heq])
    case isFalse => exact .inl h

theorem setOption_eq_of_mem (h : n ∈ onBreak.toList ∨ n ∈ onContinue.toList) :
  (Λ.setOption onBreak due).setOption onContinue due n = some due
  := by
  cases onBreak <;> cases onContinue <;> simp_all [setOption, set]
  omega

/-- Labels that cannot be reached yet hide no others. -/
theorem le_setOption_setOption (h : ∀ n ∈ onBreak.toList ++ onContinue.toList, Λ n = .none) (due : Due) :
  Λ ≤ (Λ.setOption onBreak due).setOption onContinue due
  := by
  rw [forall_mem_append] at h
  intro n d hn
  have hbreak := le_setOption h.1 due n d hn
  cases onContinue with
  | none => exact hbreak
  | some =>
    rw [setOption, set, if_neg]
    · exact hbreak
    · rintro rfl
      rw [h.2 n (by simp)] at hn
      cases hn

end Labels

/-! ### Names -/

namespace Typing

/-- The written ones among these names stand for values of the program. -/
def Plain (Γ : Typing) (F : List Ident) : Prop := ∀ x ∈ F, Written x → Γ x = .plain

namespace Plain

variable {Γ : Typing} {k : Kind} {params : List Ident}

theorem mono (h : Γ.Plain F') (hF : F ⊆ F') :
  Γ.Plain F
  := fun x hx => h x (hF hx)

theorem set_plain (h : Γ.Plain F) (names : List Ident) :
  (Γ.set names .plain).Plain (names ++ F)
  := by
  intro x hx hwritten
  by_cases hmem : x ∈ names
  · exact set_of_mem hmem
  · rw [set_of_not_mem hmem]
    exact h x ((mem_append.mp hx).resolve_left hmem) hwritten

theorem set (h : Γ.Plain F) (hnames : ∀ x ∈ names, ¬ Written x) :
  (Γ.set names k).Plain F
  := by
  intro x hx hwritten
  rw [set_of_not_mem fun hmem => hnames x hmem hwritten]
  exact h x hx hwritten

theorem sealed (h : Γ.Plain F) (params : List Ident) :
  (Γ.sealed params).Plain (params ++ F)
  := by
  intro x hx hwritten
  rw [Typing.sealed]
  split
  next => rfl
  next hmem => rw [h x ((mem_append.mp hx).resolve_left hmem) hwritten]

end Plain

end Typing

def targetNames : Target → List Ident
  | .ident t => [t]
  | .discard => []

/-- The target can receive a value. -/
def Usable (Γ : Typing) : Target → Prop
  | .ident t => (Γ t).IsValue
  | .discard => True

theorem Usable.set_plain {Γ : Typing} (h : Usable Γ target) (names : List Ident) :
  Usable (Γ.set names .plain) target
  := by
  cases target with
  | discard => trivial
  | ident =>
    rw [Usable, Typing.set]
    split
    · trivial
    · exact h

theorem Usable.set {Γ : Typing} (h : Usable Γ target) (hnames : ∀ x ∈ names, x ∉ targetNames target) (k : Kind) :
  Usable (Γ.set names k) target
  := by
  cases target with
  | discard => trivial
  | ident t =>
    rw [Usable, set_of_not_mem fun hmem => hnames t hmem (mem_singleton_self t)]
    exact h

/-! ### Frames -/

open Lowering

/-- What names stand for, what is due and which labels can be reached inside of frames. -/
inductive Fits (Γ : Typing) : List JumpFrame → Due → Labels → Prop where
  | nil (due : Due) : Fits Γ [] due .none
  | barrier (rest : List JumpFrame) (due : Due) : Fits Γ (.barrier :: rest) due .none
  | func {standIn hasResult} (label : Option Nat) (rest : List JumpFrame) (due : Due)
      (hname : ∀ x ∈ standIn.toList, (Γ x).IsValue)
      (hresult : hasResult = true → (Γ resultIdent).IsValue) :
      Fits Γ (.func label hasResult standIn :: rest) due (Labels.none.setOption label due)
  | loop {onBreak onContinue rest due Λ}
      (hfresh : ∀ n ∈ onBreak.toList ++ onContinue.toList, Λ n = none) (hrest : Fits Γ rest due Λ) :
      Fits Γ (.loop onBreak onContinue :: rest) due
      ((Λ.setOption onBreak due).setOption onContinue due)
  | final {proc v rest due Λ} (hproc : Γ proc = .special ⟨some v, due, Λ⟩)
      (hrest : Fits Γ rest due Λ) : Fits Γ (.final proc :: rest) (v :: due) Λ
  | shadow {rest due Λ} (hrest : Fits Γ rest due Λ) : Fits Γ (.shadow :: rest) due Λ

def Named (frames : List JumpFrame) : Prop := ∀ x ∈ namesOf frames, ∃ k, x = tempName k

/-- The name is not one that jumps out of the frames use. -/
def Outside (frames : List JumpFrame) (x : Ident) : Prop := x ∉ resultIdent :: namesOf frames

/-- The name was generated for something inside of the frames, after those in `old`. -/
structure Fresh (frames : List JumpFrame) (old : List Ident) (t : Ident) : Prop where
  generated : ∃ k, t = tempName k
  unused : t ∉ namesOf frames
  new : t ∉ old

section Outside

variable {frames : List JumpFrame}

theorem Named.outside (h : Named frames) (hx : ∀ k, x ≠ tempName k) (hresult : x ≠ resultIdent) :
  Outside frames x
  := by
  rw [Outside, mem_cons, not_or]
  refine ⟨hresult, fun hmem => ?_⟩
  obtain ⟨k, rfl⟩ := h x hmem
  exact hx k rfl

theorem ne_tempName_of_written (h : Written x) (k : Nat) :
  x ≠ tempName k
  := by
  rintro rfl
  exact not_written_tempName k h

theorem not_written_resultIdent :
  ¬ Written resultIdent
  := by decide

theorem Named.written (h : Named frames) (hx : Written x) :
  Outside frames x
  := by
  apply h.outside (ne_tempName_of_written hx)
  rintro rfl
  exact not_written_resultIdent hx

theorem resultIdent_ne_tempName (k : Nat) :
  resultIdent ≠ tempName k
  := by
  intro heq
  have := congrArg String.toList heq
  simp [resultIdent, tempName] at this

theorem Fresh.not_written (h : Fresh frames old t) :
  ¬ Written t
  := by
  obtain ⟨k, rfl⟩ := h.generated
  exact not_written_tempName k

theorem Fresh.outside (h : Fresh frames old t) :
  Outside frames t
  := by
  rw [Outside, mem_cons, not_or]
  obtain ⟨k, rfl⟩ := h.generated
  exact ⟨(resultIdent_ne_tempName k).symm, h.unused⟩

end Outside

namespace Fits

variable {Γ Γ' : Typing} {frames : List JumpFrame}

section

variable (h : Fits Γ frames due Λ)

include h

theorem congr (heq : ∀ x ∈ namesOf frames, Γ' x = Γ x) (hvalue : (Γ resultIdent).IsValue → (Γ' resultIdent).IsValue) :
  Fits Γ' frames due Λ
  := by
  induction h with
  | nil due => exact .nil due
  | barrier rest due => exact .barrier rest due
  | func _ _ _ hname hresult =>
    apply func _ _ _ _ fun hhas => hvalue (hresult hhas)
    intro x hx
    rw [heq x]
    · apply hname x hx
    · rw [namesOf]
      apply mem_append_left _ hx
  | loop hfresh _ ih =>
    apply loop hfresh
    apply ih heq
  | final hproc _ ih =>
    apply final
    · rw [heq _ (mem_cons_self ..), hproc]
    · apply ih
      intro x hx
      apply heq x
      apply mem_append_right _ hx
  | shadow _ ih =>
    apply shadow
    apply ih heq

theorem set (hnames : ∀ x ∈ names, Outside frames x) (k : Kind) :
  Fits (Γ.set names k) frames due Λ
  := by
  have heq : ∀ x ∈ resultIdent :: namesOf frames, Γ.set names k x = Γ x :=
    fun x hx => set_of_not_mem fun hmem => hnames x hmem hx
  rw [forall_mem_cons] at heq
  apply h.congr heq.2
  rw [heq.1]
  exact id

theorem set_result (hframes : Named frames) :
  Fits (Γ.set [resultIdent] .plain) frames due Λ
  := by
  apply h.congr
  · intro x hx
    obtain ⟨k, rfl⟩ := hframes x hx
    apply set_of_not_mem
    rw [mem_singleton]
    exact (resultIdent_ne_tempName k).symm
  · intro _
    trivial

theorem mem_labelsOf (hn : Λ n = some d) :
  n ∈ labelsOf frames
  := by
  induction h with
  | nil | barrier => cases hn
  | func =>
    rw [labelsOf, flatMap_cons, mem_append]
    rcases Labels.eq_or_mem_of_setOption hn with hn | hn
    · cases hn
    · exact .inl hn
  | @loop _ _ _ _ Λ _ _ ih =>
    rw [labelsOf, flatMap_cons, mem_append, JumpFrame.labels, mem_append]
    rcases Labels.eq_or_mem_of_setOption hn with hn | hn
    · rcases Labels.eq_or_mem_of_setOption hn with hn | hn
      · exact .inr (ih hn)
      · exact .inl (.inl hn)
    · exact .inl (.inr hn)
  | final _ _ ih | shadow _ ih => apply ih hn

theorem fresh (hnodup : (labelsOf (frame :: frames)).Nodup) :
  ∀ n ∈ frame.labels, Λ n = none
  := by
  intro n hn
  rw [labelsOf, flatMap_cons, nodup_append] at hnodup
  rw [Option.eq_none_iff_forall_ne_some]
  intro d hd
  apply hnodup.2.2 n hn n (h.mem_labelsOf hd) rfl

/-- Running the final parts on the way and then jumping leads to where what is due at the label
is due. -/
theorem leave {caught due' : Due} (hcross : Crosses frames finals depth frame)
    (hn : n ∈ frame.labels) (hΛ : Λ ≤ Λ') (hcaught : due <:+ caught) :
  Chain (finals.map Stmt.call ++ [.jumpThrow n]) Γ caught Λ' due Λ' due'
  := by
  induction hcross generalizing due Λ with
  | here _ rest =>
    have hlabel : Λ n = some due := by
      cases h with
      | func =>
        rw [JumpFrame.labels, Option.mem_toList] at hn
        subst hn
        exact if_pos rfl
      | @loop =>
        apply Labels.setOption_eq_of_mem (mem_append.mp hn)
      | _ => cases hn
    exact ⟨Λ', due', hΛ n due hlabel, ⟨rfl, rfl⟩, rfl, .inr (.inr rfl)⟩
  | final _ _ ih =>
    cases h with
    | @final _ v _ due _ hproc hrest =>
      have hdue := suffix_cons v due
      refine ⟨Λ', due, ⟨by simp [Kernel.operandIdents, Typing.Values], ?_⟩, ?_, rfl, .inl hdue⟩
      · rw [Typing.Applies, hproc]
        exact ⟨rfl, rfl, hΛ, rfl, .inr hcaught⟩
      · apply ih hrest hn hΛ
        apply hdue.trans hcaught
  | shadow _ ih =>
    cases h with
    | shadow hrest => apply ih hrest hn hΛ hcaught
  | loop _ _ _ ih =>
    cases h with
    | @loop _ _ _ _ Λ hfresh hrest =>
      apply ih hrest hn _ hcaught
      exact fun n due' h => hΛ n due' (Labels.le_setOption_setOption hfresh due n due' h)

theorem results {standIn : Option Ident} (hcross : Crosses frames finals depth (.func label hasResult standIn)) :
  (∀ x ∈ standIn.toList, (Γ x).IsValue) ∧ (hasResult = true → (Γ resultIdent).IsValue)
  := by
  generalize hframe : JumpFrame.func label hasResult standIn = frame at hcross
  induction hcross generalizing due Λ with
  | here =>
    subst hframe
    cases h with
    | func _ _ _ hname hresult => exact ⟨hname, hresult⟩
  | final _ _ ih =>
    cases h with
    | final _ hrest => apply ih hrest hframe
  | shadow _ ih =>
    cases h with
    | shadow hrest => apply ih hrest hframe
  | loop _ _ _ ih =>
    cases h with
    | loop _ hrest => apply ih hrest hframe

end

end Fits

/-! ### Lowering -/

/-- Statements that are steady in every place that the frames fit, where the names in `F` and
`reads` stand for values of the program and the target can receive one. -/
def Keeps (frames : List JumpFrame) (F reads : List Ident) (target : Target) (stmts : List Stmt) : Prop :=
  ∀ ⦃Γ : Typing⦄ ⦃Λ : Labels⦄ ⦃due : Due⦄, Fits Γ frames due Λ → Γ.Plain F → (∀ x ∈ reads, Γ x = .plain) →
    Usable Γ target → Steady Γ Λ due stmts

theorem Keeps.mono {frames : List JumpFrame} {stmts : List Stmt} (h : Keeps frames F reads target stmts) (hF : F ⊆ F') :
  Keeps frames F' reads target stmts
  := fun _ _ _ hfits hplain => h hfits (hplain.mono hF)

/-- What holds of something that has been lowered, inside of the completed frames. -/
abbrev Post (α : Type) := α → List JumpFrame → Prop

/-- The name was not generated, or was so before. -/
def Known (c : Context) (x : Ident) : Prop := ∀ k, c.next ≤ k → x ≠ tempName k

/-- What is lowered satisfies `Q`, however the frames are completed.  The names in `old` were
there before. -/
def Sound {α : Type} (x : Lower α) (Q : Post α) (old : List Ident := []) : Prop :=
  ∀ ⦃c c' : Context⦄ ⦃a : α⦄, Numbered c → (∀ y ∈ old, Known c y) → x c = .ok (a, c') →
    Advances c c' ∧ ∀ ⦃frames : List JumpFrame⦄, Completes c' frames → Q a frames

theorem Known.of_advances (h : Known c x) (hc : Advances c c') :
  Known c' x
  := fun k hk => h k (Nat.le_trans hc.next hk)

namespace Sound

variable {α β : Type} {x : Lower α} {f : α → Lower β} {Q Q' : Post α} {R : Post β} {a : α}

theorem mono (hx : Sound x Q old) (hsub : old ⊆ old') :
  Sound x Q old'
  := by
  intro c _ a hc hold hrun
  apply hx hc (fun y hy => hold y (hsub hy)) hrun

theorem of_known (hx : Sound x Q (y :: old)) (hy : ∀ k, y ≠ tempName k) :
  Sound x Q old
  := by
  intro c _ a hc hold hrun
  apply hx hc _ hrun
  rw [forall_mem_cons]
  exact ⟨fun k _ => hy k, hold⟩

theorem pure (h : ∀ frames, Named frames → Q a frames) :
  Sound (Pure.pure a) Q old
  := by
  intro c _ b hc _ hrun
  obtain ⟨rfl, rfl⟩ := pure_eq_ok_iff.mp hrun
  exact ⟨hc.advances_self, fun frames hframes => h frames hframes.names⟩

theorem bind_known (names : α → List Ident) (hx : Sound x Q old)
    (hnames : ∀ ⦃c c' a⦄, Numbered c → (∀ y ∈ old, Known c y) → x c = .ok (a, c') → ∀ y ∈ names a, Known c' y)
    (hf : ∀ a, Sound (f a) (fun b frames => Q a frames → R b frames) (names a ++ old)) :
  Sound (x >>= f) R old
  := by
  intro c _ b hc hold hrun
  obtain ⟨a, d, ha, hb⟩ := bind_eq_ok_iff.mp hrun
  obtain ⟨hadvances, hQ⟩ := hx hc hold ha
  have hknown : ∀ y ∈ names a ++ old, Known d y := by
    rw [forall_mem_append]
    exact ⟨hnames hc hold ha, fun y hy => (hold y hy).of_advances hadvances⟩
  obtain ⟨hadvances', hR⟩ := hf a hadvances.numbered hknown hb
  refine ⟨hadvances.trans hadvances', ?_⟩
  intro _ hframes
  apply hR hframes (hQ (hframes.of_advances hadvances'))

theorem bind (hx : Sound x Q old) (hf : ∀ a, Sound (f a) (fun b frames => Q a frames → R b frames) old) :
  Sound (x >>= f) R old
  := by
  exact hx.bind_known (fun _ => []) (fun _ _ _ _ _ _ => forall_mem_nil _) hf

theorem imp (hx : Sound x Q old) (h : ∀ a frames, Named frames → Q a frames → Q' a frames) :
  Sound x Q' old
  := by
  intro c _ a hc hold hrun
  obtain ⟨hadvances, hQ⟩ := hx hc hold hrun
  exact ⟨hadvances, fun frames hframes => h a frames hframes.names (hQ hframes)⟩

theorem of_run {P : α → Prop} (hx : Sound x Q old) (h : ∀ c c' a, x c = .ok (a, c') → P a) :
  Sound x (fun a frames => P a ∧ Q a frames) old
  := by
  intro c c' a hc hold hrun
  obtain ⟨hadvances, hQ⟩ := hx hc hold hrun
  exact ⟨hadvances, fun frames hframes => ⟨h c c' a hrun, hQ hframes⟩⟩

/-! ### Generated names -/

theorem freshTemp :
  Sound Lowering.freshTemp (fun t frames => Fresh frames old t) old
  := by
  intro c _ t hc hold hrun
  obtain ⟨rfl, rfl⟩ := freshTemp_eq_ok_iff.mp hrun
  refine ⟨hc.advances_fresh, ?_⟩
  intro _ hframes
  exact ⟨⟨_, rfl⟩, hframes.tempName_not_mem hc rfl (Nat.le_refl _) (Nat.lt_succ_self _), fun hmem => hold _ hmem _ (Nat.le_refl _) rfl⟩

theorem known_of_freshTemp (hrun : Lowering.freshTemp c = .ok (t, c')) :
  ∀ y ∈ [t], Known c' y
  := by
  obtain ⟨rfl, rfl⟩ := freshTemp_eq_ok_iff.mp hrun
  rw [forall_mem_singleton]
  intro k hk heq
  have := tempName_injective heq
  simp only at hk
  omega

theorem known_cons (hc : Numbered c) (hold : ∀ y ∈ old, Known c y) :
  ∀ y ∈ tempName c.next :: old, Known { c with next := c.next + 1 } y
  := by
  rw [forall_mem_cons]
  refine ⟨?_, fun y hy => (hold y hy).of_advances hc.advances_fresh⟩
  apply known_of_freshTemp (freshTemp_eq_ok_iff.mpr ⟨rfl, rfl⟩) _ (mem_singleton_self _)

theorem freshTemp_bind {f : Ident → Lower β}
    (hf : ∀ t, Sound (f t) (fun b frames => Fresh frames old t → R b frames) (t :: old)) :
  Sound (Lowering.freshTemp >>= f) R old
  := freshTemp.bind_known (fun t => [t]) (fun _ _ _ _ _ hrun => known_of_freshTemp hrun) hf

/-! ### Frames -/

section

variable (hx : Sound x Q old)

include hx

theorem inFrame_eq_ok (hc : Numbered c) (hold : ∀ y ∈ old, Known c y) (hlabels : frame.labels = [])
    (hnames : ∀ y ∈ frame.names, ∃ k < c.next, y = tempName k)
    (hrun : inFrame frame x c = .ok ((a, frame'), c')) :
  Advances c c' ∧ frame.GrowsTo c.next frame' ∧
    ∀ ⦃frames : List JumpFrame⦄, Completes c' frames → (labelsOf (frame' :: frames)).Nodup ∧ Q a (frame' :: frames)
  := by
  obtain ⟨d, ha, rfl, rfl⟩ := Lowering.inFrame_eq_ok hrun
  obtain ⟨hadvances, hQ⟩ := hx (hc.enter hlabels hnames) hold ha
  have hleaves := hadvances.leaves
  refine ⟨hleaves.advances, hleaves.grows, ?_⟩
  intro _ hframes
  have hcompletes := hleaves.completes hframes
  exact ⟨hcompletes.nodup, hQ hcompletes⟩

theorem inFrame (hlabels : frame.labels = [] := by rfl) (hnames : frame.names = [] := by rfl) :
  Sound (Lowering.inFrame frame x) (fun r frames => frame.GrowsTo 0 r.2 ∧
    (labelsOf (r.2 :: frames)).Nodup ∧ Q r.1 (r.2 :: frames)) old
  := by
  rintro c _ ⟨a, _⟩ hc hold hrun
  obtain ⟨hadvances, hgrows, hQ⟩ := hx.inFrame_eq_ok hc hold hlabels (by simp [hnames]) hrun
  exact ⟨hadvances, fun frames hframes => ⟨hgrows.mono (Nat.zero_le _), hQ hframes⟩⟩

theorem inShadow :
  Sound (Lowering.inFrame .shadow x) (fun r frames => Q r.1 (.shadow :: frames)) old
  := by
  apply hx.inFrame.imp
  rintro ⟨a, _⟩ _ - ⟨hgrows, -, hQ⟩
  cases hgrows
  exact hQ

end

/-- Inside of an attempt its final part is due, and what follows knows it by a name that was
just generated. -/
theorem inFinal {x : Ident → Lower α} {f : Ident → α × JumpFrame → Lower β} {Q : Ident → Post α}
    {R : Ident → α → Post β} (hx : ∀ t, Sound (x t) (Q t) (t :: old))
    (hf : ∀ t r, Sound (f t r) (R t r.1) (t :: old)) :
  Sound (Lowering.freshTemp >>= fun t => Lowering.inFrame (.final t) (x t) >>= f t) (fun b frames =>
    ∃ t a, Fresh frames old t ∧ Q t a (.final t :: frames) ∧ R t a b frames) old
  := by
  intro c _ b hc hold hrun
  obtain ⟨t, d, ht, hrun⟩ := bind_eq_ok_iff.mp hrun
  obtain ⟨rfl, rfl⟩ := freshTemp_eq_ok_iff.mp ht
  obtain ⟨⟨a, _⟩, e, ha, hb⟩ := bind_eq_ok_iff.mp hrun
  have hd := hc.advances_fresh
  have hname : ∀ y ∈ (JumpFrame.final (tempName c.next)).names, ∃ k < c.next + 1, y = tempName k := by
    intro y hy
    rw [JumpFrame.names, mem_singleton] at hy
    exact ⟨c.next, Nat.lt_succ_self _, hy⟩
  have hknown := known_cons hc hold
  obtain ⟨hadvances, hgrows, hQ⟩ := (hx _).inFrame_eq_ok hd.numbered hknown rfl hname ha
  obtain ⟨hadvances', hR⟩ := hf _ _ hadvances.numbered (fun y hy => (hknown y hy).of_advances hadvances) hb
  refine ⟨hd.trans (hadvances.trans hadvances'), ?_⟩
  intro _ hframes
  have hmiddle := hframes.of_advances hadvances'
  cases hgrows
  exact ⟨_, a, ⟨⟨_, rfl⟩, (hmiddle.of_advances hadvances).tempName_not_mem hc rfl (Nat.le_refl _) (Nat.lt_succ_self _),
    fun hmem => hold _ hmem _ (Nat.le_refl _) rfl⟩, (hQ hmiddle).2, hR hframes⟩

end Sound

end Control

end ActorLang
