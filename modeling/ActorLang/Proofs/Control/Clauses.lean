import ActorLang.Proofs.Control.Programs
import ActorLang.Proofs.Pattern.Stepwise

/-!
# Clauses one by one

The statement for some alternatives matches the first of them.  What is left is done where it fails,
if there is only one such place or nothing to do, or is a procedure that is called in every such
place.  The names of these parts are kept apart: a pattern captures written names and those
generated for it, and the others are generated later.
-/

namespace ActorLang

open Kernel (Ident Operand Stmt FeaturePattern RecordPattern resultIdent)
open List
open Control

/-! ### Where names occur -/

variable {stmts : List Stmt} {s yes failed : Stmt} {arg : Operand} {setup : Setup} {x : Ident}

namespace Kernel.Stmt

theorem mem_listOccurrences_iff :
  x ∈ listOccurrences stmts ↔ ∃ s ∈ stmts, x ∈ s.occurrences
  := by
  induction stmts with
  | nil => simp [listOccurrences]
  | cons s _ ih => simp [listOccurrences, ih]

theorem mem_occurrences_elements :
  x ∈ s.occurrences ↔ ∃ e ∈ s.elements, x ∈ e.occurrences
  := by
  cases s with
  | seq => exact mem_listOccurrences_iff
  | skip => simp [elements, occurrences]
  | _ => simp [elements]

theorem mem_occurrences_ofList :
  x ∈ (ofList stmts).occurrences ↔ ∃ s ∈ stmts, x ∈ s.occurrences
  := by
  have hflat : (∃ s ∈ stmts, x ∈ s.occurrences) ↔ ∃ e ∈ stmts.flatMap elements, x ∈ e.occurrences := by
    constructor
    · rintro ⟨s, hs, hx⟩
      obtain ⟨e, he, hx⟩ := mem_occurrences_elements.mp hx
      exact ⟨e, mem_flatMap.mpr ⟨s, hs, he⟩, hx⟩
    · rintro ⟨e, he, hx⟩
      obtain ⟨s, hs, he⟩ := mem_flatMap.mp he
      exact ⟨s, hs, mem_occurrences_elements.mpr ⟨e, he, hx⟩⟩
  rw [hflat, ofList]
  split
  next h => simp [h, occurrences]
  next s h => simp [h]
  next => exact mem_listOccurrences_iff

theorem mem_occurrences_within {names : List Ident} :
  x ∈ (within names s).occurrences ↔ x ∈ s.occurrences ∧ x ∉ names
  := by
  rw [within]
  split
  next h => simp [List.isEmpty_iff.mp h]
  next => simp [occurrences]

end Kernel.Stmt

namespace Lowering

variable {c c' d e : Context}

/-! ### The names of a lowered pattern -/

/-- The name is not generated from here on. -/
def Context.Spares (c : Context) (x : Ident) : Prop := ∀ n, c.next ≤ n → x ≠ tempName n ∧ x ≠ anonymousName n

section Spares

theorem Context.spares_of_written (c : Context) (hx : Written x) :
  c.Spares x
  := by
  refine fun n _ => ⟨?_, ?_⟩
  · rintro rfl
    exact not_written_tempName n hx
  · rintro rfl
    exact not_written_anonymousName n hx

theorem Context.spares_of_second (c : Context) (hv : x.toList[1]? ≠ some 'v') (ha : x.toList[1]? ≠ some 'a') :
  c.Spares x
  := by
  refine fun n _ => ⟨?_, ?_⟩
  · rintro rfl
    simp [tempName] at hv
  · rintro rfl
    simp [anonymousName] at ha

end Spares

/-- Something lowered in the second context belongs to what is lowered in the first, inside of some procedures for what
is left. -/
structure Context.Inside (c d : Context) : Prop where
  next : c.next ≤ d.next
  frames : ∃ n frames, d.frames = List.replicate n .shadow ++ frames ∧ FramesGrow c.next c.frames frames

section Inside

theorem Context.Inside.refl (c : Context) :
  c.Inside c
  := ⟨Nat.le_refl _, 0, c.frames, rfl, .refl _ _⟩

theorem eq_replicate_of_grow {low n : Nat} {frames frames' : List JumpFrame}
    (h : FramesGrow low (List.replicate n .shadow ++ frames) frames') :
  ∃ rest, frames' = List.replicate n .shadow ++ rest ∧ FramesGrow low frames rest
  := by
  induction n generalizing frames' with
  | zero => exact ⟨frames', rfl, h⟩
  | succ n ih =>
    cases h with
    | cons hframe hrest =>
      obtain ⟨rest, rfl, hgrow⟩ := ih hrest
      cases hframe
      exact ⟨rest, rfl, hgrow⟩

theorem Context.Inside.advances (h : c.Inside d) (hd : Advances d e) :
  c.Inside e
  := by
  obtain ⟨hle, n, frames, hframes, hgrow⟩ := h
  have hgrow' := hd.frames
  rw [hframes] at hgrow'
  obtain ⟨rest, hrest, hgrow'⟩ := eq_replicate_of_grow hgrow'
  exact ⟨Nat.le_trans hle hd.next, n, rest, hrest, hgrow.trans (hgrow'.mono hle)⟩

theorem Context.Inside.shadow (h : c.Inside d) :
  c.Inside { d with frames := .shadow :: d.frames }
  := by
  obtain ⟨hle, n, frames, hframes, hgrow⟩ := h
  exact ⟨hle, n + 1, frames, by rw [hframes]; rfl, hgrow⟩

end Inside

section Names

variable {p : Pattern} {root : Kernel.Pattern} {children : List ChildPattern}
variable {q : RecordPattern} {known : List Ident}

theorem mem_matchChildrenThen (hx : x ∈ yes.occurrences) (hnot : x ∉ children.flatMap (·.pattern.captures)) :
  x ∈ (matchChildrenThen children yes failed).occurrences
  := by
  induction children with
  | nil => exact hx
  | cons _ _ ih =>
    rw [flatMap_cons, mem_append, not_or] at hnot
    have hrest := ih hnot.2
    simp only [matchChildrenThen, foldr_cons, Stmt.occurrences, mem_append, mem_filter]
    exact .inl (.inr ⟨hrest, by simpa [Kernel.Pattern.captures] using hnot.1⟩)

theorem mem_matchThen (arg : Operand) (hx : x ∈ yes.occurrences) (hnot : x ∉ loweredCaptures root children) :
  x ∈ (matchThen arg root children yes failed).occurrences
  := by
  rw [loweredCaptures, mem_append, not_or] at hnot
  simp only [matchThen, Stmt.occurrences, mem_append, mem_filter]
  exact .inl (.inr ⟨mem_matchChildrenThen hx hnot.2, by simpa using hnot.1⟩)

theorem mem_loweredCaptures (h : p.lower c = .ok ((root, children), c')) (hx : x ∈ loweredCaptures root children) :
  x ∈ captured p.uses ∨ Generated c.next c'.next x
  := by
  rw [loweredCaptures, ← root.captured_uses_eq, ← Exec.captured_childUses, ← captured_append] at hx
  exact (flattened_lower h).2 x hx

theorem exact_of_lowered (h : p.lower c = .ok ((root, children), c'))
    (hq : root = .record q ∨ ∃ child ∈ children, child.pattern = q) (hx : .escaped x ∈ q.exacts) :
  .exact x ∈ p.uses
  := by
  have hx : .exact x ∈ q.uses :=
    mem_append_left _ (mem_flatMap.mpr ⟨_, hx, mem_singleton_self _⟩)
  have hu : .exact x ∈ root.uses ++ childUses children := by
    rcases hq with rfl | ⟨child, hchild, rfl⟩
    · exact mem_append_left _ hx
    · exact mem_append_right _ (mem_flatMap.mpr ⟨child, hchild, hx⟩)
  rcases use_of_lowered h hu with hu | ⟨_, hcapture, -⟩
  · exact hu
  · cases hcapture

theorem outerPins_subset :
  outerPins known children ⊆ namesRead (childUses children)
  := by
  induction children generalizing known with
  | nil => exact nil_subset _
  | cons child _ ih =>
    rw [childUses, flatMap_cons, namesRead, filterMap_append]
    refine append_subset.mpr ⟨?_, subset_append_of_subset_right _ ih⟩
    refine subset_append_of_subset_left _ fun x hx => ?_
    exact child.pattern.pinned_subset (mem_filter.mp hx).1

/-- What a lowered pattern reads from outside is read as written. -/
theorem outerNames_subset_namesRead (h : p.lower c = .ok ((root, children), c')) :
  outerNames root children ⊆ namesRead p.uses
  := by
  refine Subset.trans ?_ (flattened_lower h).1.reads
  rw [namesRead, filterMap_append]
  exact append_subset.mpr ⟨subset_append_of_subset_left _ root.pinned_subset,
    subset_append_of_subset_right _ outerPins_subset⟩

theorem exact_mem_outerPins {child : ChildPattern} (h : FeaturesOuter known children)
    (hchild : child ∈ children) (hx : .escaped x ∈ child.pattern.exacts) :
  x ∈ outerPins known children
  := by
  induction children generalizing known with
  | nil => cases hchild
  | cons _ _ ih =>
    rcases mem_cons.mp hchild with rfl | hchild
    · refine mem_append_left _ (mem_filter.mpr ⟨RecordPattern.mem_pinned (.inr ?_), ?_⟩)
      · exact mem_append_left _ (mem_flatMap.mpr ⟨_, hx, mem_singleton_self _⟩)
      · simpa using h.1 x hx
    · exact mem_append_right _ (ih h.2 hchild)

/-- A label or feature that is a name is read from outside, if it is not captured before. -/
theorem exact_mem_outerNames (h : FeaturesOuter root.captures children)
    (hq : root = .record q ∨ ∃ child ∈ children, child.pattern = q) (hx : .escaped x ∈ q.exacts) :
  x ∈ outerNames root children
  := by
  rcases hq with rfl | ⟨_, hchild, rfl⟩
  · refine mem_append_left _ (RecordPattern.mem_pinned (.inr ?_))
    exact mem_append_left _ (mem_flatMap.mpr ⟨_, hx, mem_singleton_self _⟩)
  · exact mem_append_right _ (exact_mem_outerPins h hchild hx)

theorem featuresOuter_of_subset (all : List Ident) (hknown : known ⊆ all)
    (hchildren : ∀ child ∈ children, child.pattern.captures ⊆ all ∧ ∀ x, .escaped x ∈ child.pattern.exacts → x ∉ all) :
  FeaturesOuter known children
  := by
  induction children generalizing known with
  | nil => trivial
  | cons _ _ ih =>
    obtain ⟨⟨hcaptures, hexacts⟩, hrest⟩ := forall_mem_cons.mp hchildren
    exact ⟨fun x hx hmem => hexacts x hx (hknown hmem), ih (append_subset.mpr ⟨hknown, hcaptures⟩) hrest⟩

theorem featuresOuter_lower (h : p.lower c = .ok ((root, children), c')) (hp : ∀ u ∈ p.uses, Written u.name)
    (hexact : ∀ x, .exact x ∈ p.uses → x ∉ captured p.uses) :
  FeaturesOuter root.captures children
  := by
  apply featuresOuter_of_subset (loweredCaptures root children) (subset_append_left _ _)
  refine fun child hchild => ⟨?_, ?_⟩
  · exact fun x hx => mem_append_right _ (mem_flatMap.mpr ⟨child, hchild, hx⟩)
  · intro x hx hmem
    have hx := exact_of_lowered h (.inr ⟨child, hchild, rfl⟩) hx
    rcases mem_loweredCaptures h hmem with hmem | hmem
    · exact hexact x hx hmem
    · exact hmem.not_written (hp _ hx)

theorem isSome_feature?_lower {s : Store} {env : Env} (h : p.lower c = .ok ((root, children), c'))
    (hexact : ∀ x, .exact x ∈ p.uses → (s.featureOf? env x).isSome)
    (hq : root = .record q ∨ ∃ child ∈ children, child.pattern = q) {f : FeaturePattern}
    (hf : f ∈ q.exacts) :
  (f.feature? s env).isSome
  := by
  obtain ⟨hroot, hchildren⟩ := exact_lower h
  have hf' : f.IsExact := by
    rcases hq with hq | ⟨child, hchild, rfl⟩
    · exact hroot q hq f hf
    · exact hchildren child hchild f hf
  cases f with
  | lit l =>
    have hl : (Feature.ofLiteral? l).isSome = l.isFeature := by
      cases l <;> rfl
    exact hl.trans hf'
  | escaped x => exact hexact x (exact_of_lowered h hq hf)

end Names

/-! ### The first alternative -/

theorem temps_of_operand {p : Phrase} (h : p.operand c = .ok ((arg, setup), c')) :
  ∀ x ∈ setup.temps, x = tempName c.next
  := by
  rw [Phrase.operand] at h
  cases hatom : p.atom? with
  | some =>
    rw [hatom] at h
    obtain ⟨heq, -⟩ := pure_eq_ok_iff.mp h
    cases heq
    exact forall_mem_nil _
  | none =>
    rw [hatom] at h
    obtain ⟨t, d, ht, h⟩ := bind_eq_ok_iff.mp h
    obtain ⟨rfl, -⟩ := freshTemp_eq_ok_iff.mp ht
    obtain ⟨_, e, -, h⟩ := bind_eq_ok_iff.mp h
    obtain ⟨heq, -⟩ := pure_eq_ok_iff.mp h
    cases heq
    exact forall_mem_singleton.mpr rfl

theorem optionalOperand_eq_ok {p : Option Phrase} {arg : Option Operand}
    (h : optionalOperand p c = .ok ((arg, setup), c')) :
  (p = none ∧ arg = none ∧ setup = {}) ∨ ∃ q g, p = some q ∧ arg = some g ∧ q.operand c = .ok ((g, setup), c')
  := by
  cases p with
  | none =>
    obtain ⟨heq, -⟩ := pure_eq_ok_iff.mp h
    cases heq
    exact .inl ⟨rfl, rfl, rfl⟩
  | some q =>
    obtain ⟨⟨g, _⟩, d, hoperand, h⟩ := bind_eq_ok_iff.mp h
    obtain ⟨heq, rfl⟩ := pure_eq_ok_iff.mp h
    cases heq
    exact .inr ⟨q, g, rfl, rfl, hoperand⟩

/-- The target in the procedure for what is left. -/
def leftTarget : Target → Target
  | .ident _ => .ident resultIdent
  | .discard => .discard

/-- The lowered parts of an alternative: a pattern, then a guard after some numbers have been left out, and a body. -/
structure Attempted (alt : Alternative) (target : Target) (c : Context) (gap : Nat) where
  root : Kernel.Pattern
  children : List ChildPattern
  guard : Option Operand
  setup : Setup
  body : Stmt
  afterPattern : Context
  afterGuard : Context
  after : Context
  lower : alt.pattern.lower c = .ok ((root, children), afterPattern)
  operand : optionalOperand alt.guard { afterPattern with next := afterPattern.next + gap } =
    .ok ((guard, setup), afterGuard)
  into : alt.body.into target afterGuard = .ok (body, after)

namespace Attempted

variable {alt : Alternative} {target : Target} {gap : Nat} (a : Attempted alt target c gap)
def next : Ident := tempName a.afterPattern.next

/-- What is done if the pattern matches. -/
def guarded (failed : Stmt) : Stmt := guardThen a.guard a.setup a.body failed

def stmt (arg : Operand) (failed : Stmt) : Stmt := matchThen arg a.root a.children (a.guarded failed) failed

/-- The names that are bound on the way to the body. -/
def bound : List Ident := loweredCaptures a.root a.children ++ a.setup.temps

theorem temps :
  ∀ x ∈ a.setup.temps, x = tempName (a.afterPattern.next + gap)
  := by
  rcases optionalOperand_eq_ok a.operand with ⟨-, -, hsetup⟩ | ⟨q, g, -, -, hoperand⟩
  · rw [hsetup]
    exact forall_mem_nil _
  · exact temps_of_operand hoperand

theorem advances_pattern (hc : Numbered c) :
  Advances c { a.afterPattern with next := a.afterPattern.next + gap }
  := by
  have hpattern := hc.advances_next (accounts_lower a.lower).le (frames_lower a.lower)
  exact hpattern.trans (hpattern.numbered.advances_next (Nat.le_add_right _ _) rfl)

theorem advances_guard {F : List Ident} (hc : Numbered c) (halt : DisciplinedAlternative F alt) :
  Advances c a.afterGuard
  := by
  have hpattern := a.advances_pattern hc
  exact hpattern.trans (@sound_optionalOperand _ [] _ halt.guard _ _ _ hpattern.numbered (forall_mem_nil _) a.operand).1

theorem advances {F : List Ident} (hc : Numbered c) (halt : DisciplinedAlternative F alt)
    (htarget : ∀ x ∈ targetNames target, c.Spares x) :
  Advances c a.after
  := by
  have hguard := a.advances_guard hc halt
  have hknown : ∀ y ∈ targetNames target, Known a.afterGuard y :=
    fun y hy k hk => (htarget y hy k (Nat.le_trans hguard.next hk)).1
  exact hguard.trans (halt.body.into target hguard.numbered hknown a.into).1

theorem mem_bound (hx : x ∈ a.bound) :
  x ∈ captured alt.pattern.uses ∨ ¬ c.Spares x
  := by
  rcases mem_append.mp hx with hx | hx
  · refine (mem_loweredCaptures a.lower hx).imp_right ?_
    exact fun ⟨n, hn, _, hx⟩ hspares => hx.elim (hspares n hn).1 (hspares n hn).2
  · refine .inr fun hspares => ?_
    have hle := (accounts_lower a.lower).le
    exact (hspares _ (Nat.le_add_right_of_le hle)).1 (a.temps x hx)

theorem ne_next (hx : c.Spares x) :
  x ≠ a.next
  := (hx _ (accounts_lower a.lower).le).1

theorem next_not_mem_bound (a : Attempted alt target c 1) (hp : ∀ u ∈ alt.pattern.uses, Written u.name) :
  a.next ∉ a.bound
  := by
  intro hmem
  rcases mem_append.mp hmem with hmem | hmem
  · rcases mem_loweredCaptures a.lower hmem with hmem | hgenerated
    · exact not_written_tempName _ (written_captured hp _ hmem)
    · have hnext : Generated a.afterPattern.next (a.afterPattern.next + 1) a.next :=
        ⟨a.afterPattern.next, Nat.le_refl _, Nat.lt_succ_self _, .inl rfl⟩
      exact hgenerated.disjoint hnext
  · have heq := tempName_injective (a.temps _ hmem)
    omega

theorem mem_guarded (hx : x ∈ a.body.occurrences) (hbound : x ∉ a.setup.temps) :
  x ∈ (a.guarded failed).occurrences
  := by
  rw [guarded, guardThen.eq_def]
  split
  next guard _ =>
    have hlast : x ∈ (Stmt.ifElse guard a.body failed).occurrences := by
      simp [Stmt.occurrences, hx]
    rw [Setup.finish, Stmt.mem_occurrences_within, Stmt.mem_occurrences_ofList]
    exact ⟨⟨_, mem_append_right _ (mem_singleton_self _), hlast⟩, hbound⟩
  next => exact hx

end Attempted

/-- What alternatives are lowered to, if there is a first one. -/
inductive Unfolds (arg : Operand) (fallback : Fallback) (alt : Alternative) (rest : List Alternative)
    (target : Target) (c : Context) : Stmt → Prop where
  /-- Nothing is left but the fallback. -/
  | last (a : Attempted alt target c 0) {failed d} (hrest : rest = [])
      (hfailed : fallback.into target a.after = .ok (failed, d))
      (honce : failed = .skip ∨ a.children = [] ∧ alt.guard = none) :
      Unfolds arg fallback alt rest target c (a.stmt arg failed)
  /-- What is left is a procedure. -/
  | more (a : Attempted alt target c 1) {no d d'} (hnext : d.next = a.after.next)
      (hframes : d.frames = a.after.frames ∨ d.frames = .shadow :: a.after.frames)
      (hno : alternatives arg fallback rest (leftTarget target) d = .ok (no, d')) : Unfolds arg
      fallback alt rest target c
      (.scope [a.next] (.seq [.createProc (targetNames (leftTarget target)) no a.next, a.stmt arg (.apply (.ident a.next) (targetArgs target))]))

theorem unfolds_alternatives {fallback : Fallback} {alt : Alternative} {rest : List Alternative} {target : Target}
    (hrun : alternatives arg fallback (alt :: rest) target c = .ok (s, c')) :
  Unfolds arg fallback alt rest target c s
  := by
  rw [alternatives_cons] at hrun
  obtain ⟨⟨root, children⟩, c₁, hpattern, hrun⟩ := bind_eq_ok_iff.mp hrun
  dsimp only at hrun
  split at hrun
  next hlast =>
    rw [Bool.and_eq_true, List.isEmpty_iff] at hlast
    obtain ⟨⟨guard, setup⟩, c₂, hguard, hrun⟩ := bind_eq_ok_iff.mp hrun
    obtain ⟨body, c₃, hbody, hrun⟩ := bind_eq_ok_iff.mp hrun
    obtain ⟨_, _, hfailed, hrun⟩ := bind_eq_ok_iff.mp hrun
    obtain ⟨rfl, rfl⟩ := pure_eq_ok_iff.mp hrun
    refine .last ⟨root, children, guard, setup, body, c₁, c₂, c₃, hpattern, hguard, hbody⟩ hlast.1 hfailed ?_
    rcases Bool.or_eq_true_iff.mp hlast.2 with honce | hskip
    · exact .inr (by simpa using honce)
    · cases fallback with
      | skip => exact .inl (pure_eq_ok_iff.mp hfailed).1.symm
      | _ => cases hskip
  next =>
    obtain ⟨_, _, hnext, hrun⟩ := bind_eq_ok_iff.mp hrun
    obtain ⟨rfl, rfl⟩ := freshTemp_eq_ok_iff.mp hnext
    obtain ⟨⟨guard, setup⟩, c₃, hguard, hrun⟩ := bind_eq_ok_iff.mp hrun
    obtain ⟨body, c₄, hbody, hrun⟩ := bind_eq_ok_iff.mp hrun
    obtain ⟨⟨_, _⟩, _, hleft, hrun⟩ := bind_eq_ok_iff.mp hrun
    obtain ⟨rfl, rfl⟩ := pure_eq_ok_iff.mp hrun
    let a : Attempted alt target c 1 := ⟨root, children, guard, setup, body, c₁, c₃, c₄, hpattern, hguard, hbody⟩
    cases target with
    | ident =>
      obtain ⟨⟨_, _⟩, _, hno, hleft⟩ := bind_eq_ok_iff.mp hleft
      cases (pure_eq_ok_iff.mp hleft).1
      obtain ⟨d, hno, -, -⟩ := inFrame_eq_ok hno
      exact .more (d := { c₄ with frames := .shadow :: c₄.frames }) a rfl (.inr rfl) hno
    | discard =>
      obtain ⟨_, _, hno, hleft⟩ := bind_eq_ok_iff.mp hleft
      cases (pure_eq_ok_iff.mp hleft).1
      exact .more a rfl (.inl rfl) hno

end Lowering

end ActorLang
