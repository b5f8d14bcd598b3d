import ActorLang.Proofs.Pattern.Matching
import ActorLang.Proofs.Store.Operations
import ActorLang.Proofs.Store.Paths
import Mathlib

/-!
# Decisions are final

What has been decided about values that are bound only in part stays decided.  A difference between
two values is one in every extension of the store, since a simulation in the extension is one in the
store too, where variables are left out of account.
-/

namespace ActorLang

open Kernel (Ident FeaturePattern LeafPattern RecordPattern)
open List

/-! ### Comparisons -/

variable {c : Comparison} {r : Record} {waiting waiting' : Option VarId} {fields : List (FeaturePattern × LeafPattern)}

namespace Store

open Comparison

variable {s t : Store} {a b : Value}

/-- The store is reached by further operations. -/
inductive Onward (s : Store) : Store → Prop where
  | refl : Onward s s
  | run {t : Store} {op : Operation} (h : Onward s t) (hop : op.Admissible t) :
      Onward s (op.run t)

theorem Onward.extendedBy (h : s.Onward t) (hs : s.Valid) :
  s.ExtendedBy t ∧ t.Valid
  := by
  induction h with
  | refl => exact ⟨ExtendedBy.refl s, hs⟩
  | run _ hop ih =>
    obtain ⟨hext, hvalid⟩ := ih.2.run hop
    exact ⟨ih.1.trans hext, hvalid⟩

theorem ExtendedBy.simulates_lenient {R : Value → Value → Prop}
    (h : s.ExtendedBy t) (hs : s.WellFormed) (hc : c.FieldWise) (hR : c.lenient.Simulates t [] R) :
  c.lenient.Simulates s [] fun v w => R v w ∧ v.Within s ∧ w.Within s
  := by
  rintro v w ⟨hvw, hv, hw⟩
  have hagree := hR v w hvw
  have hwithin := hs.resolve_within hv
  have hwithin' := hs.resolve_within hw
  cases hd : s.resolve v with
  | var => apply Agrees.variable (Or.inl rfl) rfl
  | datum =>
    cases he : s.resolve w with
    | var => apply Agrees.variable (Or.inr rfl) rfl
    | datum =>
      rw [h.resolve_eq_datum hs hv hd, h.resolve_eq_datum hs hw he] at hagree
      rw [hd] at hwithin
      rw [he] at hwithin'
      rcases hagree.data_cases with ⟨p, q, rfl, rfl⟩ | ⟨i, j, rfl, rfl⟩
      · apply Agrees.scalar (agrees_scalar_iff.mp hagree)
      · rw [agrees_record_iff, h.record i hwithin, h.record j hwithin'] at hagree
        rw [agrees_record_iff]
        apply hagree.imp_right
        rintro ⟨pairs, hpairs, hrel⟩
        refine ⟨pairs, hpairs, ?_⟩
        intro p hp
        have hmem := hc _ _ pairs hpairs p hp
        exact ⟨hrel p hp, hs.fields i _ hmem.1, hs.fields j _ hmem.2⟩

theorem ExtendedBy.compareAll_eq_false (h : s.ExtendedBy t) (hs : s.WellFormed)
    (ht : t.WellFormed) (hc : c.FieldWise) (ha : a.Within s) (hb : b.Within s)
    (hfalse : s.compareAll c [] none [(a, b)] = .ok false) :
  t.compareAll c [] none [(a, b)] = .ok false
  := by
  by_contra hne
  obtain ⟨R, hR, hab⟩ := (compareAll_ne_false_iff ht hc (h.within ha) (h.within hb)).mp hne
  apply (compareAll_ne_false_iff hs hc ha hb).mpr _ hfalse
  refine ⟨_, h.simulates_lenient hs hc hR, ?_⟩
  intro p hp
  have hRp := hab p hp
  rw [mem_singleton] at hp
  subst hp
  exact ⟨hRp, ha, hb⟩

theorem ExtendedBy.equals_eq_ok (h : s.ExtendedBy t) (hs : s.WellFormed) (ht : t.WellFormed)
    (ha : a.Within s) (hb : b.Within s) (hfree : t.NaNFree a) {answer : Bool}
    (hanswer : s.equals a b = .ok answer) :
  t.equals a b = .ok answer
  := by
  cases answer with
  | false => apply h.compareAll_eq_false hs ht equality_fieldWise ha hb hanswer
  | true =>
    apply (equals_eq_ok_true_iff ht (h.within ha) (h.within hb)).mpr
    apply (h.below hs).bisimilar hs ha hb hfree
    apply (equals_eq_ok_true_iff hs ha hb).mp hanswer

end Store

/-! ### Matches that stay decided -/

namespace Exec

open Lowering

variable {s t : Store} {σ τ σ' : Session} {env : Env} {v : Value} {known all : Captures}
  {result : Option Captures} {early late : List (Ident × VarId)}

theorem leafOutcome?_extendedBy {leaf : LeafPattern} {answer : Except VarId Bool} (hst : s.ExtendedBy t)
    (hs : s.WellFormed) (ht : t.WellFormed) (hv : v.Within s ∧ t.NaNFree v) (hleaf : leaf.pinned? = none)
    (hknown : ∀ y ∈ known, y.2.Within s ∧ t.NaNFree y.2)
    (h : leaf.outcome? s env known v = some (answer, all)) :
  ∃ answer', leaf.outcome? t env known v = some (answer', all) ∧ ∀ b, answer = .ok b → answer' = .ok b
  := by
  cases leaf with
  | escaped => cases hleaf
  | lit l =>
    cases h
    exact ⟨_, rfl, fun b hb => hst.equals_eq_ok (b := .lit l) hs ht hv.1 trivial hv.2 hb⟩
  | ident =>
    rw [LeafPattern.outcome?] at h ⊢
    split at h <;> cases h
    next first hfirst =>
      obtain ⟨hwithin, hfree⟩ := hknown _ (Env.mem_of_lookup hfirst)
      exact ⟨_, rfl, fun b hb => hst.equals_eq_ok hs ht hwithin hv.1 hfree hb⟩
    next => exact ⟨_, rfl, fun _ hb => hb⟩

theorem feature?_of_pinned? {f : FeaturePattern} (hf : f.pinned? = none) :
  f.feature? s env = f.feature? t env
  := by
  cases f with
  | lit => rfl
  | escaped => cases hf

theorem fieldsOutcome?_extendedBy (hst : s.ExtendedBy t) (hs : s.WellFormed) (ht : t.WellFormed)
    (hvalues : ∀ v ∈ r.values, v.Within s ∧ t.NaNFree v)
    (hfields : ∀ p ∈ fields, p.1.pinned? = none ∧ p.2.pinned? = none)
    (hwaiting : waiting = none → waiting' = none) {names : List Ident}
    (hknown : Caught (fun w => w.Within s ∧ t.NaNFree w) names known)
    (h : Kernel.fieldsOutcome? s env r known waiting fields = some result) :
  Kernel.fieldsOutcome? t env r known waiting' fields = some result
  := by
  induction fields generalizing known names waiting waiting' with
  | nil =>
    cases waiting with
    | some => cases h
    | none =>
      cases hwaiting rfl
      exact h
  | cons _ _ ih =>
    obtain ⟨⟨hfeature, hleaf⟩, hrest⟩ := forall_mem_cons.mp hfields
    obtain ⟨feature, hf, h⟩ := Option.bind_eq_some_iff.mp h
    rw [feature?_of_pinned? (t := t) hfeature] at hf
    simp only [Kernel.fieldsOutcome?, hf, Option.bind_eq_bind, Option.bind_some]
    split at h
    · exact h
    next value hget =>
      have hvalue := hvalues _ (Record.mem_values_of_get? hget)
      obtain ⟨⟨answer, _⟩, houtcome, h⟩ := Option.bind_eq_some_iff.mp h
      obtain ⟨answer', houtcome', hanswer⟩ := leafOutcome?_extendedBy hst hs ht hvalue hleaf hknown.values houtcome
      have hknown' := hknown.of_leaf hvalue houtcome
      simp only [houtcome']
      rcases answer with x | (_ | _)
      · -- the match waits in the first store, and can only fail there
        rcases answer' with _ | (_ | _)
        · exact ih hrest (by simp) hknown' h
        · rw [fieldsOutcome?_waiting (by simp) h]
          rfl
        · exact ih hrest (by simp) hknown' h
      · cases hanswer false rfl
        exact h
      · cases hanswer true rfl
        exact ih hrest hwaiting hknown' h

theorem fields_extendedBy {id : RecordId} (hst : s.ExtendedBy t) (hs : s.WellFormed) (hv : v.Within s)
    (hfree : t.NaNFree v) (hid : s.resolve v = .datum (.record id)) :
  ∀ w ∈ (s.record id).values, w.Within s ∧ t.NaNFree w
  := by
  intro w hw
  have hwithin := hs.resolve_within hv
  rw [hid] at hwithin
  have hreaches : t.Reaches v (.datum (.record id)) := by
    rw [← hst.resolve_eq_datum hs hv hid]
    exact .resolve .self
  refine ⟨hs.fields id w hw, hfree.of_reaches (.field hreaches ?_)⟩
  rwa [hst.record id hwithin]

theorem outcome?_extendedBy {p : Kernel.Pattern} (hst : s.ExtendedBy t) (hs : s.WellFormed)
    (ht : t.WellFormed) (hv : v.Within s) (hfree : t.NaNFree v) (hp : p.pinned = [])
    (h : p.outcome? s env v = some result) :
  p.outcome? t env v = some result
  := by
  have hdatum {d : Datum} (hd : (s.resolve v).datum? = some d) :
      s.resolve v = .datum d ∧ t.resolve v = .datum d ∧ (Value.datum d).Within s ∧ t.NaNFree (.datum d) := by
    rw [Value.datum?_eq_some_iff] at hd
    have hd' := hst.resolve_eq_datum hs hv hd
    exact ⟨hd, hd', hd ▸ hs.resolve_within hv, hd' ▸ hfree.of_reaches (.resolve .self)⟩
  cases p with
  | escaped => cases hp
  | ident => exact h
  | lit l =>
    obtain ⟨d, hd, h⟩ := Option.bind_eq_some_iff.mp h
    obtain ⟨b, hb, h⟩ := Option.bind_eq_some_iff.mp h
    obtain ⟨-, hd', hwithin, hdfree⟩ := hdatum hd
    cases hequals : s.equals (.datum d) (.lit l) with
    | error =>
      rw [hequals] at hb
      cases hb
    | ok =>
      rw [hequals] at hb
      cases hb
      have hequals' := hst.equals_eq_ok (b := .lit l) hs ht hwithin trivial hdfree hequals
      simp only [Kernel.Pattern.outcome?, hd', Value.datum?, Option.bind_eq_bind, Option.bind_some, hequals']
      exact h
  | record p =>
    simp only [Kernel.Pattern.pinned, RecordPattern.pinned, append_eq_nil_iff, Option.toList_eq_nil_iff,
      flatMap_eq_nil_iff] at hp
    obtain ⟨d, hd, h⟩ := Option.bind_eq_some_iff.mp h
    obtain ⟨hd, hd', hwithin, -⟩ := hdatum hd
    simp only [Kernel.Pattern.outcome?, RecordPattern.outcome?, hd', Value.datum?, Option.bind_eq_bind]
    cases d with
    | scalar => exact h
    | record id =>
      have hrecord : t.record id = s.record id := hst.record id hwithin
      obtain ⟨label, hlabel, h⟩ := Option.bind_eq_some_iff.mp h
      have hlabel' : FeaturePattern.label? t env p.label = some label := by
        rw [← hlabel]
        cases hp' : p.label with
        | none => rfl
        | some f =>
          have hf : f.pinned? = none := by
            simpa [hp'] using hp.1
          rw [FeaturePattern.label?, FeaturePattern.label?, feature?_of_pinned? hf]
      simp only [hlabel', Option.bind_some, hrecord]
      dsimp only at h
      split at h
      · rwa [if_pos ‹_›]
      · rw [if_neg ‹_›]
        split at h
        · rwa [if_pos ‹_›]
        · rw [if_neg ‹_›]
          exact fieldsOutcome?_extendedBy hst hs ht (fields_extendedBy hst hs hv hfree hd) hp.2 (fun h => h) (.nil _) h

/-- Captures under one name, in two sessions.  The later store has the same value for both. -/
structure SameCapture (σ τ : Session) (x y : Ident × VarId) : Prop where
  name : x.1 = y.1
  resolve : τ.store.resolve (σ.store.resolve (.var x.2)) = τ.store.resolve (.var y.2)
  equal : τ.store.equals (σ.store.resolve (.var x.2)) (.var y.2) = .ok true

theorem forall₂_sameCapture (hst : s.ExtendedBy t) (hs : s.WellFormed) (ht : t.WellFormed)
    (hτ : t.GrownTo τ.store) (hearly : Forall₂ (Holds s σ.store) early known)
    (hlate : Forall₂ (Holds t τ.store) late known)
    (hknown : ∀ y ∈ known, y.2.Within s ∧ t.NaNFree y.2) :
  Forall₂ (SameCapture σ τ) early late
  := by
  induction hearly generalizing late with
  | nil =>
    cases hlate
    exact .nil
  | @cons x z _ _ hxz _ ih =>
    cases hlate with
    | @cons y _ _ _ hyz hlate =>
      obtain ⟨⟨hz, hfree⟩, hknown⟩ := forall_mem_cons.mp hknown
      have hres := hs.resolve_within hz
      have hboth : t.resolve (s.resolve z.2) = t.resolve z.2 := hst.resolve_resolve hs hz
      have hsame : τ.store.resolve (σ.store.resolve (.var x.2)) =
          τ.store.resolve (.var y.2) := by
        rw [hxz.resolve, hyz.resolve, hτ.resolve _ (hst.within hres), hboth]
      refine .cons ⟨hxz.name.trans hyz.name.symm, hsame, ?_⟩ (ih hlate hknown)
      have hcompare : τ.store.equals (σ.store.resolve (.var x.2)) (.var y.2) = t.equals z.2 z.2 :=
        hτ.compareAll_eq ht Comparison.equality_fieldWise (.cons ⟨hsame.trans hyz.resolve, hyz.resolve⟩ .nil)
      rw [hcompare]
      apply (Store.equals_eq_ok_true_iff ht (hst.within hz) (hst.within hz)).mpr
      exact Store.bisimilar_self hfree

theorem sees_of_pinned {p : Kernel.Pattern} (hp : p.pinned = []) :
  Sees s env env p.pinned
  := by
  rw [hp]
  exact forall_mem_nil _

/-- Decisions are final.  Let further operations be done on a store.  An equality that was decided
is decided as before.  What did not entail a value still does not.  And if a pattern that reads no
names was found to match a value, or not to match it, then so it is now, and it captures equal
values.  Where a value contains NaN it is not equal to itself, which may be found out late. -/
theorem decisions_final {s t : Store} (hs : s.Valid) (h : s.Onward t) :
  (∀ a b answer, a.Within s → b.Within s → t.NaNFree a → s.equals a b = .ok answer →
    t.equals a b = .ok answer) ∧
  (∀ a b, a.Within s → b.Within s → s.entails a b = .ok false → t.entails a b = .ok false) ∧
  ∀ (env : Env) (v : Value) (p : Kernel.Pattern) (σ τ σ' : Session)
    (result : Option (List (Ident × VarId))), v.Within s → t.NaNFree v → p.pinned = [] →
    σ.store = s → τ.store = t → (matchPattern env v p).Returns σ result σ' →
    ∃ result' τ', (matchPattern env v p).Returns τ result' τ' ∧
      Option.Rel (Forall₂ (SameCapture σ' τ')) result result'
  := by
  obtain ⟨hst, ht⟩ := h.extendedBy hs
  have hs := hs.wellFormed
  have ht := ht.wellFormed
  refine ⟨?_, ?_, ?_⟩
  · intro a b _ ha hb hfree hanswer
    exact hst.equals_eq_ok hs ht ha hb hfree hanswer
  · intro a b ha hb hfalse
    exact hst.compareAll_eq_false hs ht Comparison.entailment_fieldWise ha hb hfalse
  · rintro env v p _ τ _ _ hv hfree hp rfl rfl hrun
    obtain ⟨outcome, u, houtcome, rfl, -, hholds⟩ := (answers_matchPattern hs hv (sees_of_pinned hp)).of_returns hrun
    have hanswers := answers_matchPattern ht (hst.within hv) (show Sees τ.store env env p.pinned from sees_of_pinned hp)
    rw [outcome?_extendedBy hst hs ht hv hfree hp houtcome] at hanswers
    obtain ⟨result', w, hrun', hw, hholds'⟩ := hanswers
    refine ⟨result', _, hrun', ?_⟩
    cases hholds with
    | none =>
      cases hholds'
      exact .none
    | some hearly =>
      cases hholds' with
      | some hlate =>
        refine .some (forall₂_sameCapture hst hs ht hw hearly hlate ?_)
        exact (caught_outcome? ⟨hv, hfree⟩
          (fun _ => fields_extendedBy hst hs hv hfree) houtcome).values

def twins : Store := Store.Operation.run Store.sharing (.newRecord (.tuple none [.var 0, .var 1]))

def boundTwins : Store := Store.Operation.run twins (.unify (.var 0) (.lit (.str "a")))

/-- A pair whose parts are equal. -/
def twinPattern : Kernel.Pattern :=
  .record
    { label := none
      fields := [(.lit (.int32 0), .ident "x"), (.lit (.int32 1), .ident "x")]
      isPartial := false }

theorem twins_valid :
  twins.Valid
  := by
  apply (Store.sharing_built.run _).valid
  have hsize : Store.sharing.slots.size = 2 := by
    cbv
  simp [Store.Operation.Admissible, Record.values, Record.tuple, Leaf.toValue, Value.Within, hsize]

theorem boundTwins_nanFree :
  boundTwins.NaNFree (.record 2)
  := by
  have hslots : boundTwins.slots.toList = [.link 1, .bound (.scalar (.lit (.str "a")))] := by
    cbv
  have hrecords : boundTwins.records.toList = [.tuple none [.lit (.int32 1), .var 0],
      .tuple none [.lit (.int32 2), .lit (.str "a")], .tuple none [.var 0, .var 1]] := by
    cbv
  apply Store.nanFree_of_no_nan
  · simp [hslots, Scalar.IsNaN]
  · simp [hrecords, Record.values, Record.tuple, Leaf.toValue, Leaf.lit, Value.scalar, Scalar.IsNaN, -mem_map]
  · rintro p ⟨⟩

/-- The parts are found to be equal before they have a value, and still are when they have one. -/
theorem decisions_final_twins :
  ∃ σ' result' τ',
    (matchPattern [] (.record 2) twinPattern).Returns ((default : Session).withStore twins)
      (some [("x", 1)]) σ' ∧
    (matchPattern [] (.record 2) twinPattern).Returns ((default : Session).withStore boundTwins)
      result' τ' ∧
    Option.Rel (Forall₂ (SameCapture σ' τ')) (some [("x", 1)]) result'
  := by
  have hlater : twins.Onward boundTwins := .run .refl ⟨by cbv, trivial⟩
  have hmatch : ((matchPattern [] (.record 2) twinPattern).run
      ((default : Session).withStore twins)).1 = .ok (some [("x", 1)]) := by
    cbv
  obtain ⟨σ', hrun⟩ : ∃ σ', (matchPattern [] (.record 2) twinPattern).Returns
      ((default : Session).withStore twins) (some [("x", 1)]) σ' := ⟨_, Prod.ext hmatch rfl⟩
  obtain ⟨result', τ', hrun', hresult⟩ := (decisions_final twins_valid hlater).2.2 [] (.record 2)
    twinPattern _ ((default : Session).withStore boundTwins) σ' _ (by cbv) boundTwins_nanFree rfl rfl
    rfl hrun
  exact ⟨σ', result', τ', hrun, hrun', hresult⟩

end Exec

end ActorLang
