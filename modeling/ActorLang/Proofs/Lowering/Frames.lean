import ActorLang.Proofs.Lowering.Names
import Mathlib.Data.List.Forall2

/-!
# Frames while lowering

Lowering a phrase leaves the frames around it as they are, but for labels and aliases that are
made on their first use.  All of them are numbered by one counter, so that no two are the same.
-/

namespace ActorLang.Lowering

open Kernel (Ident)
open List

namespace JumpFrame

def labels : JumpFrame → List Nat
  | func label _ _ => label.toList
  | loop onBreak onContinue => onBreak.toList ++ onContinue.toList
  | _ => []

def names : JumpFrame → List Ident
  | func _ _ standIn => standIn.toList
  | final proc => [proc]
  | _ => []

end JumpFrame

def labelsOf (frames : List JumpFrame) : List Nat := frames.flatMap JumpFrame.labels

def namesOf (frames : List JumpFrame) : List Ident := frames.flatMap JumpFrame.names

/-! ### Growth -/

/-- Something that may be missing stays, or is made so that `P` holds. -/
def Made {α : Type} (P : α → Prop) (a b : Option α) : Prop :=
  b = a ∨ a = none ∧ ∃ x, b = some x ∧ P x

/-- The frame with more labels and aliases, numbered from `low` on. -/
inductive JumpFrame.GrowsTo (low : Nat) : JumpFrame → JumpFrame → Prop where
  | func {label label' hasResult standIn standIn'} (hlabel : Made (low ≤ ·) label label')
      (hname : Made (fun x => hasResult = true ∧ ∃ k, low ≤ k ∧ x = tempName k) standIn standIn') :
      GrowsTo low (.func label hasResult standIn) (.func label' hasResult standIn')
  | barrier : GrowsTo low .barrier .barrier
  | loop {onBreak onBreak' onContinue onContinue'} (hbreak : Made (low ≤ ·) onBreak onBreak')
      (hcontinue : Made (low ≤ ·) onContinue onContinue') :
      GrowsTo low (.loop onBreak onContinue) (.loop onBreak' onContinue')
  | final (proc : Ident) : GrowsTo low (.final proc) (.final proc)
  | shadow : GrowsTo low .shadow .shadow

abbrev FramesGrow (low : Nat) : List JumpFrame → List JumpFrame → Prop :=
  Forall₂ (JumpFrame.GrowsTo low)

variable {frame frame' : JumpFrame} {n low label depth i low' : Nat} {x name : Ident} {d : Context}
  {hasResult isBreak : Bool} {standIn : Option Ident} {finals : List Ident}

section Growth

variable {α : Type} {P Q : α → Prop}

theorem Made.refl (a : Option α) :
  Made P a a
  := .inl rfl

theorem Made.mono {a b : Option α} (h : Made P a b) (hPQ : ∀ x, P x → Q x) :
  Made Q a b
  := by
  rcases h with h | ⟨hnone, x, hx, hP⟩
  · exact .inl h
  · exact .inr ⟨hnone, x, hx, hPQ x hP⟩

theorem Made.trans {a b c : Option α} (h : Made P a b) (h' : Made P b c) :
  Made P a c
  := by
  rcases h with rfl | ⟨rfl, x, rfl, hx⟩
  · apply h'
  · rcases h' with rfl | ⟨hnone, -⟩
    · exact .inr ⟨rfl, x, rfl, hx⟩
    · cases hnone

theorem Made.mem {a b : Option α} (h : Made P a b) {x : α} (hx : x ∈ b.toList) :
  x ∈ a.toList ∨ P x
  := by
  rcases h with rfl | ⟨rfl, y, rfl, hy⟩
  · exact .inl hx
  · rw [Option.toList_some, mem_singleton] at hx
    rw [hx]
    exact .inr hy

theorem Made.sublist {a b : Option α} (h : Made P a b) :
  a.toList.Sublist b.toList
  := by
  rcases h with rfl | ⟨rfl, -⟩
  · apply Sublist.refl
  · apply nil_sublist

namespace JumpFrame.GrowsTo

theorem labels_subset (h : GrowsTo low frame frame') :
  frame.labels ⊆ frame'.labels
  := by
  cases h with
  | func hlabel hname => exact hlabel.sublist.subset
  | loop hbreak hcontinue => exact (hbreak.sublist.append hcontinue.sublist).subset
  | _ => exact Subset.refl _

theorem refl (low : Nat) (frame : JumpFrame) :
  GrowsTo low frame frame
  := by
  cases frame with
  | func => exact .func (.refl _) (.refl _)
  | barrier => exact .barrier
  | loop => exact .loop (.refl _) (.refl _)
  | final proc => exact .final proc
  | shadow => exact .shadow

theorem mono (h : GrowsTo low' frame frame') (hle : low ≤ low') :
  GrowsTo low frame frame'
  := by
  cases h with
  | func hlabel hname =>
    apply func
    · apply hlabel.mono fun n hn => Nat.le_trans hle hn
    · apply hname.mono
      rintro x ⟨hresult, k, hk, rfl⟩
      exact ⟨hresult, k, Nat.le_trans hle hk, rfl⟩
  | barrier => exact .barrier
  | loop hbreak hcontinue =>
    apply loop
    · apply hbreak.mono fun n hn => Nat.le_trans hle hn
    · apply hcontinue.mono fun n hn => Nat.le_trans hle hn
  | final proc => exact .final proc
  | shadow => exact .shadow

theorem trans {a b c : JumpFrame} (h : GrowsTo low a b) (h' : GrowsTo low b c) :
  GrowsTo low a c
  := by
  cases h with
  | func hlabel hname =>
    cases h' with
    | func hlabel' hname' => exact .func (hlabel.trans hlabel') (hname.trans hname')
  | barrier | final | shadow => apply h'
  | loop hbreak hcontinue =>
    cases h' with
    | loop hbreak' hcontinue' => exact .loop (hbreak.trans hbreak') (hcontinue.trans hcontinue')

theorem mem_labels (h : GrowsTo low frame frame') (hn : n ∈ frame'.labels) :
  n ∈ frame.labels ∨ low ≤ n
  := by
  cases h with
  | func hlabel _ => apply hlabel.mem hn
  | loop hbreak hcontinue =>
    rcases mem_append.mp hn with hn | hn
    · apply (hbreak.mem hn).imp_left (mem_append_left _)
    · apply (hcontinue.mem hn).imp_left (mem_append_right _)
  | barrier | final | shadow => exact .inl hn

theorem mem_names (h : GrowsTo low frame frame') (hx : x ∈ frame'.names) :
  x ∈ frame.names ∨ ∃ k, low ≤ k ∧ x = tempName k
  := by
  cases h with
  | func _ hname => exact (hname.mem hx).imp_right And.right
  | loop => cases hx
  | barrier | final | shadow => exact .inl hx

end JumpFrame.GrowsTo

namespace FramesGrow

variable {frames frames' frames'' : List JumpFrame}

theorem refl (low : Nat) (frames : List JumpFrame) :
  FramesGrow low frames frames
  := forall₂_same.mpr fun frame _ => .refl low frame

theorem mono (h : FramesGrow low' frames frames') (hle : low ≤ low') :
  FramesGrow low frames frames'
  := h.imp fun _ _ h => h.mono hle

theorem trans (h : FramesGrow low frames frames') (h' : FramesGrow low frames' frames'') :
  FramesGrow low frames frames''
  := by
  induction h generalizing frames'' with
  | nil => apply h'
  | cons hframe _ ih =>
    cases h' with
    | cons hframe' hrest' => exact .cons (hframe.trans hframe') (ih hrest')

theorem mem_labelsOf (h : FramesGrow low frames frames') (hn : n ∈ labelsOf frames') :
  n ∈ labelsOf frames ∨ low ≤ n
  := by
  induction h with
  | nil => cases hn
  | cons hframe _ ih =>
    rw [labelsOf, flatMap_cons, mem_append] at hn ⊢
    rcases hn with hn | hn
    · apply (hframe.mem_labels hn).imp_left .inl
    · apply (ih hn).imp_left .inr

theorem mem_namesOf (h : FramesGrow low frames frames') (hx : x ∈ namesOf frames') :
  x ∈ namesOf frames ∨ ∃ k, low ≤ k ∧ x = tempName k
  := by
  induction h with
  | nil => cases hx
  | cons hframe _ ih =>
    rw [namesOf, flatMap_cons, mem_append] at hx ⊢
    rcases hx with hx | hx
    · apply (hframe.mem_names hx).imp_left .inl
    · apply (ih hx).imp_left .inr

end FramesGrow

end Growth

/-! ### Contexts -/

/-- All labels and names of the frames are numbered below the counter, the labels differently. -/
structure Numbered (c : Context) : Prop where
  labels : ∀ n ∈ labelsOf c.frames, n < c.next
  nodup : (labelsOf c.frames).Nodup
  names : ∀ x ∈ namesOf c.frames, ∃ k < c.next, x = tempName k

/-- Lowering leads from one context to another. -/
structure Advances (c c' : Context) : Prop where
  next : c.next ≤ c'.next
  frames : FramesGrow c.next c.frames c'.frames
  numbered : Numbered c'

/-- The frames as they are in the end, after all that is still to be lowered. -/
structure Completes (c : Context) (frames : List JumpFrame) : Prop where
  grow : FramesGrow c.next c.frames frames
  nodup : (labelsOf frames).Nodup
  names : ∀ x ∈ namesOf frames, ∃ k, x = tempName k

section Contexts

variable {c c' c'' : Context} {frames frames' : List JumpFrame}
theorem Numbered.advances_self (h : Numbered c) :
  Advances c c where
  next := Nat.le_refl _
  frames := .refl _ _
  numbered := h

theorem Advances.trans (h : Advances c c') (h' : Advances c' c'') :
  Advances c c'' where
  next := Nat.le_trans h.next h'.next
  frames := h.frames.trans (FramesGrow.mono h'.frames h.next)
  numbered := h'.numbered

theorem Completes.of_advances (h : Completes c' frames) (hc : Advances c c') :
  Completes c frames where
  grow := hc.frames.trans (FramesGrow.mono h.grow hc.next)
  nodup := h.nodup
  names := h.names

theorem Numbered.advances_next (h : Numbered c) (hle : c.next ≤ c'.next) (hframes : c'.frames = c.frames) :
  Advances c c'
  := by
  refine ⟨hle, ?_, ?_, ?_, ?_⟩
  · rw [hframes]
    apply FramesGrow.refl
  · intro n hn
    rw [hframes] at hn
    apply Nat.lt_of_lt_of_le (h.labels n hn) hle
  · rw [hframes]
    exact h.nodup
  · intro x hx
    rw [hframes] at hx
    obtain ⟨k, hk, heq⟩ := h.names x hx
    exact ⟨k, Nat.lt_of_lt_of_le hk hle, heq⟩

theorem Numbered.advances_fresh (h : Numbered c) :
  Advances c { c with next := c.next + 1 }
  := h.advances_next (Nat.le_succ _) rfl

theorem Completes.tempName_not_mem (h : Completes c' frames) (hc : Numbered c)
    (hframes : c'.frames = c.frames) (hlow : c.next ≤ n) (hhigh : n < c'.next) :
  tempName n ∉ namesOf frames
  := by
  intro hmem
  rcases FramesGrow.mem_namesOf h.grow hmem with hmem | ⟨k, _, heq⟩
  · rw [hframes] at hmem
    obtain ⟨k, _, heq⟩ := hc.names _ hmem
    have := tempName_injective heq
    omega
  · have := tempName_injective heq
    omega

/-! ### Inside a frame -/

theorem inFrame_eq_ok {α : Type} {x : Lower α} {a : α} (h : inFrame frame x c = .ok ((a, frame'), c')) :
  ∃ d, x { c with frames := frame :: c.frames } = .ok (a, d) ∧
    frame' = d.frames.headD frame ∧ c' = { d with frames := d.frames.tail }
  := by
  obtain ⟨_, d, hd, h⟩ := bind_eq_ok_iff.mp h
  cases hd
  obtain ⟨b, d, hx, h⟩ := bind_eq_ok_iff.mp h
  obtain ⟨_, _, hget, h⟩ := bind_eq_ok_iff.mp h
  cases hget
  obtain ⟨_, _, hset, h⟩ := bind_eq_ok_iff.mp h
  cases hset
  cases h
  exact ⟨d, hx, rfl, rfl⟩

theorem Numbered.enter (h : Numbered c) (hlabels : frame.labels = [])
    (hnames : ∀ x ∈ frame.names, ∃ k < c.next, x = tempName k) :
  Numbered { c with frames := frame :: c.frames } where
  labels n hn := by
    rw [labelsOf, flatMap_cons, hlabels] at hn
    apply h.labels n hn
  nodup := by
    rw [labelsOf, flatMap_cons, hlabels]
    apply h.nodup
  names x hx := by
    rw [namesOf, flatMap_cons, mem_append] at hx
    rcases hx with hx | hx
    · apply hnames x hx
    · apply h.names x hx

/-- What has been lowered inside of a frame, seen from outside. -/
structure Leaves (c : Context) (frame frame' : JumpFrame) (d c' : Context) : Prop where
  frames : d.frames = frame' :: c'.frames
  next : d.next = c'.next
  grows : frame.GrowsTo c.next frame'
  advances : Advances c c'
  numbered : Numbered d

theorem Advances.leaves (h : Advances { c with frames := frame :: c.frames } d) :
  Leaves c frame (d.frames.headD frame) d { d with frames := d.frames.tail }
  := by
  obtain ⟨next, frames⟩ := d
  have hframes := h.frames
  cases hframes with
  | @cons _ _ _ _ hframe hrest =>
    refine ⟨rfl, rfl, hframe, ?_, h.numbered⟩
    obtain ⟨hlabels, hnodup, hnames⟩ := h.numbered
    simp only [labelsOf, namesOf, flatMap_cons, mem_append] at hlabels hnodup hnames
    exact {
      next := h.next
      frames := hrest
      numbered := {
        labels := fun n hn => hlabels n (.inr hn)
        nodup := (nodup_append.mp hnodup).2.1
        names := fun x hx => hnames x (.inr hx) } }

theorem Leaves.completes (h : Leaves c frame frame' d c') (hF : Completes c' frames) :
  Completes d (frame' :: frames)
  := by
  obtain ⟨hlabels, hnodup, hnames⟩ := h.numbered
  rw [h.frames] at hlabels hnodup hnames
  simp only [labelsOf, namesOf, flatMap_cons, mem_append] at hlabels hnodup hnames
  constructor
  · rw [h.frames, h.next]
    exact .cons (.refl _ _) hF.grow
  · rw [labelsOf, flatMap_cons, nodup_append]
    refine ⟨(nodup_append.mp hnodup).1, hF.nodup, ?_⟩
    rintro n hn _ hn' rfl
    rcases FramesGrow.mem_labelsOf hF.grow hn' with hn' | hn'
    · apply (nodup_append.mp hnodup).2.2 n hn n hn' rfl
    · have := hlabels n (.inl hn)
      rw [h.next] at this
      omega
  · intro x hx
    rw [namesOf, flatMap_cons, mem_append] at hx
    rcases hx with hx | hx
    · obtain ⟨k, -, hk⟩ := hnames x (.inl hx)
      exact ⟨k, hk⟩
    · apply hF.names x hx

/-! ### Labels on their first use -/

theorem framesGrow_set (hi : frames[i]? = some frame) (h : frame.GrowsTo low frame') :
  FramesGrow low frames (frames.set i frame')
  := by
  induction frames generalizing i with
  | nil => cases hi
  | cons _ _ ih =>
    cases i with
    | zero =>
      cases hi
      exact .cons h (FramesGrow.refl _ _)
    | succ => exact .cons (.refl _ _) (ih hi)

theorem labelsOf_set {new : List Nat} (hi : frames[i]? = some frame) (h : frame'.labels.Perm (new ++ frame.labels)) :
  (labelsOf (frames.set i frame')).Perm (new ++ labelsOf frames)
  := by
  induction frames generalizing i with
  | nil => cases hi
  | cons _ _ ih =>
    cases i with
    | zero =>
      cases hi
      simp only [labelsOf, flatMap_cons]
      rw [← append_assoc]
      apply h.append_right
    | succ =>
      simp only [labelsOf, flatMap_cons]
      apply ((ih hi).append_left _).trans
      rw [← append_assoc, ← append_assoc]
      apply Perm.append_right
      apply perm_append_comm

theorem mem_namesOf_set (hx : x ∈ namesOf (frames.set i frame')) :
  x ∈ namesOf frames ∨ x ∈ frame'.names
  := by
  rw [namesOf, mem_flatMap] at hx
  obtain ⟨f, hf, hx⟩ := hx
  rcases mem_or_eq_of_mem_set hf with hf | rfl
  · exact .inl (mem_flatMap.mpr ⟨f, hf, hx⟩)
  · exact .inr hx

/-- A frame takes a number, for a label or an alias. -/
inductive JumpFrame.Takes (n : Nat) : JumpFrame → JumpFrame → Prop where
  | label (hasResult : Bool) (standIn : Option Ident) :
      Takes n (.func none hasResult standIn) (.func (some n) hasResult standIn)
  | standIn (label : Option Nat) :
      Takes n (.func label true none) (.func label true (some (tempName n)))
  | onBreak (onContinue : Option Nat) : Takes n (.loop none onContinue) (.loop (some n) onContinue)
  | onContinue (onBreak : Option Nat) : Takes n (.loop onBreak none) (.loop onBreak (some n))

/-- The frame at a depth is there already, or one there takes the next number. -/
inductive Relabels (c : Context) (depth : Nat) (frame' : JumpFrame) : Context → Prop where
  | kept (hframe : c.frames[depth]? = some frame') : Relabels c depth frame' c
  | made {frame : JumpFrame} (hframe : c.frames[depth]? = some frame) (h : frame.Takes c.next frame') :
      Relabels c depth frame' ⟨c.next + 1, c.frames.set depth frame'⟩

section Relabels

theorem JumpFrame.Takes.growsTo (h : frame.Takes n frame') :
  frame.GrowsTo n frame'
  := by
  cases h with
  | label => exact .func (.inr ⟨rfl, n, rfl, Nat.le_refl _⟩) (.refl _)
  | standIn => exact .func (.refl _) (.inr ⟨rfl, _, rfl, rfl, n, Nat.le_refl _, rfl⟩)
  | onBreak => exact .loop (.inr ⟨rfl, n, rfl, Nat.le_refl _⟩) (.refl _)
  | onContinue => exact .loop (.refl _) (.inr ⟨rfl, n, rfl, Nat.le_refl _⟩)

theorem JumpFrame.Takes.labels (h : frame.Takes n frame') :
  ∃ new, new.Sublist [n] ∧ frame'.labels.Perm (new ++ frame.labels)
  := by
  cases h with
  | label | onBreak => exact ⟨[n], .refl _, .refl _⟩
  | standIn => exact ⟨[], nil_sublist _, .refl _⟩
  | onContinue onBreak => exact ⟨[n], .refl _, by simp [JumpFrame.labels]⟩

theorem JumpFrame.Takes.names (h : frame.Takes n frame') :
  ∀ x ∈ frame'.names, x ∈ frame.names ∨ x = tempName n
  := by
  cases h with
  | standIn => exact fun x hx => .inr (mem_singleton.mp hx)
  | _ => exact fun x hx => .inl hx

theorem Relabels.getElem?_eq (h : Relabels c depth frame' c') :
  c'.frames[depth]? = some frame'
  := by
  cases h with
  | kept hframe => exact hframe
  | made hframe => exact List.getElem?_set_self (List.getElem?_eq_some_iff.mp hframe).1

theorem Relabels.grow (h : Relabels c depth frame' c') :
  FramesGrow c.next c.frames c'.frames
  := by
  cases h with
  | kept => exact .refl _ _
  | made hframe htakes => exact framesGrow_set hframe htakes.growsTo

theorem Relabels.advances (h : Relabels c depth frame' c') (hc : Numbered c) :
  Advances c c'
  := by
  have hgrow := h.grow
  cases h with
  | kept => exact hc.advances_self
  | made hframe htakes =>
    obtain ⟨_, hnew, hlabels⟩ := htakes.labels
    have hperm := labelsOf_set hframe hlabels
    refine ⟨Nat.le_succ _, hgrow, ?_, ?_, ?_⟩
    · intro n hn
      rcases mem_append.mp (hperm.mem_iff.mp hn) with hn | hn
      · rw [mem_singleton.mp (hnew.subset hn)]
        apply Nat.lt_succ_self
      · apply Nat.lt_succ_of_lt (hc.labels n hn)
    · rw [hperm.nodup_iff, nodup_append]
      refine ⟨Nodup.sublist hnew (by simp), hc.nodup, ?_⟩
      rintro n hn _ hn' rfl
      rw [mem_singleton.mp (hnew.subset hn)] at hn'
      apply Nat.lt_irrefl _ (hc.labels _ hn')
    · have hold {x : Ident} (hx : x ∈ namesOf c.frames) : ∃ k < c.next + 1, x = tempName k := by
        obtain ⟨k, hk, heq⟩ := hc.names x hx
        exact ⟨k, Nat.lt_succ_of_lt hk, heq⟩
      intro x hx
      rcases mem_namesOf_set hx with hx | hx
      · apply hold hx
      · rcases htakes.names x hx with hx | rfl
        · apply hold
          rw [namesOf, mem_flatMap]
          exact ⟨_, mem_of_getElem? hframe, hx⟩
        · exact ⟨c.next, Nat.lt_succ_self _, rfl⟩

theorem relabels_returnLabel {onReturn : Option Nat} (hframe : c.frames[depth]? = some (.func onReturn hasResult standIn))
    (h : returnLabel depth c = .ok (label, c')) :
  Relabels c depth (.func (some label) hasResult standIn) c'
  := by
  obtain ⟨_, _, hget, h⟩ := bind_eq_ok_iff.mp h
  cases hget
  simp only [hframe] at h
  cases onReturn with
  | some =>
    obtain ⟨rfl, rfl⟩ := pure_eq_ok_iff.mp h
    exact .kept hframe
  | none =>
    cases h
    exact .made hframe (.label _ _)

theorem relabels_resultAlias {label : Option Nat} (hframe : c.frames[depth]? = some (.func label true standIn))
    (h : resultAlias depth c = .ok (name, c')) :
  Relabels c depth (.func label true (some name)) c'
  := by
  obtain ⟨_, _, hget, h⟩ := bind_eq_ok_iff.mp h
  cases hget
  simp only [hframe] at h
  cases standIn with
  | some =>
    obtain ⟨rfl, rfl⟩ := pure_eq_ok_iff.mp h
    exact .kept hframe
  | none =>
    cases h
    exact .made hframe (.standIn _)

theorem relabels_loopLabel {onBreak onContinue : Option Nat}
    (hframe : c.frames[depth]? = some (.loop onBreak onContinue))
    (h : loopLabel isBreak depth c = .ok (label, c')) :
  ∃ onBreak' onContinue', Relabels c depth (.loop onBreak' onContinue') c' ∧
    (if isBreak then onBreak' else onContinue') = some label
  := by
  obtain ⟨_, _, hget, h⟩ := bind_eq_ok_iff.mp h
  cases hget
  simp only [hframe] at h
  cases hlabel : (if isBreak then onBreak else onContinue) with
  | some =>
    rw [hlabel] at h
    obtain ⟨rfl, rfl⟩ := pure_eq_ok_iff.mp h
    exact ⟨onBreak, onContinue, .kept hframe, hlabel⟩
  | none =>
    rw [hlabel] at h
    cases h
    cases isBreak with
    | true =>
      cases hlabel
      exact ⟨_, _, .made hframe (.onBreak _), rfl⟩
    | false =>
      cases hlabel
      exact ⟨_, _, .made hframe (.onContinue _), rfl⟩

end Relabels

/-! ### Where jumps go -/

/-- A jump that leaves frames, for one at a depth: the final parts on the way, innermost
first. -/
inductive Crosses : List JumpFrame → List Ident → Nat → JumpFrame → Prop where
  | here (frame : JumpFrame) (rest : List JumpFrame) : Crosses (frame :: rest) [] 0 frame
  | final {rest finals depth frame} (proc : Ident) (h : Crosses rest finals depth frame) :
      Crosses (.final proc :: rest) (proc :: finals) (depth + 1) frame
  | shadow {rest finals depth frame} (h : Crosses rest finals depth frame) :
      Crosses (.shadow :: rest) finals (depth + 1) frame
  | loop {rest finals depth frame} (onBreak onContinue : Option Nat)
      (h : Crosses rest finals depth frame) :
      Crosses (.loop onBreak onContinue :: rest) finals (depth + 1) frame

theorem crosses_of_returnPoint? {point : ReturnPoint} (h : returnPoint? frames = some point) :
  ∃ label standIn, Crosses frames point.finals point.depth (.func label point.hasResult standIn)
  := by
  induction frames generalizing point with
  | nil => cases h
  | cons frame _ ih =>
    cases frame with
    | barrier => cases h
    | func label _ standIn =>
      cases h
      exact ⟨label, standIn, .here _ _⟩
    | final | shadow | loop =>
      obtain ⟨p, hp, rfl⟩ := Option.map_eq_some_iff.mp h
      obtain ⟨label, standIn, hcross⟩ := ih hp
      refine ⟨label, standIn, ?_⟩
      constructor
      exact hcross

theorem crosses_of_loopPoint? {finals : List Ident} (h : loopPoint? frames = some (finals, depth)) :
  ∃ onBreak onContinue, Crosses frames finals depth (.loop onBreak onContinue)
  := by
  induction frames generalizing finals depth with
  | nil => cases h
  | cons frame _ ih =>
    cases frame with
    | barrier | func => cases h
    | loop onBreak onContinue =>
      cases h
      exact ⟨onBreak, onContinue, .here _ _⟩
    | final | shadow =>
      obtain ⟨p, hp, heq⟩ := Option.map_eq_some_iff.mp h
      cases heq
      obtain ⟨onBreak, onContinue, hcross⟩ := ih hp
      refine ⟨onBreak, onContinue, ?_⟩
      constructor
      exact hcross

namespace Crosses

theorem getElem?_eq (h : Crosses frames finals depth frame) :
  frames[depth]? = some frame
  := by
  induction h with
  | here => rfl
  | final _ h ih | shadow h ih | loop _ _ h ih => exact ih

theorem grow (h : Crosses frames finals depth frame) (hgrow : FramesGrow low frames frames') :
  ∃ frame', Crosses frames' finals depth frame' ∧ frame.GrowsTo low frame'
  := by
  induction h generalizing frames' with
  | here =>
    cases hgrow with
    | cons hframe => exact ⟨_, .here _ _, hframe⟩
  | final _ h ih | shadow h ih | loop _ _ h ih =>
    cases hgrow with
    | cons hframe hrest =>
      cases hframe
      obtain ⟨frame', hcross, hgrows⟩ := ih hrest
      refine ⟨frame', ?_, hgrows⟩
      constructor
      exact hcross

theorem of_advances (h : Crosses c.frames finals depth frame)
    (hc : Advances c c') (hframe : c'.frames[depth]? = some frame') :
  Crosses c'.frames finals depth frame'
  := by
  obtain ⟨_, hcross, -⟩ := h.grow hc.frames
  rw [hcross.getElem?_eq] at hframe
  cases hframe
  exact hcross

end Crosses

end Contexts

end ActorLang.Lowering
