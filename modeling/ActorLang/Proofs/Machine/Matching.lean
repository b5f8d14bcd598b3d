import ActorLang.Proofs.Machine.Agreement
import ActorLang.Proofs.Store.Ground

/-!
# Matches that agree

A match reads the pinned names of its pattern and captures values under the others.
-/

namespace ActorLang

open Kernel (Ident FeaturePattern LeafPattern RecordPattern Pattern)
open List

variable {α β : Type} {names : List Ident} {captures captures' : List (Ident × VarId)} {v x : VarId}
  {field : Leaf} {p : LeafPattern} {σ σ' : Session}

namespace Exec

section Match

variable {M : Mode} {V W : View} {C : Definition → Prop} {env env' : Env}

/-- The captures are those of the names, and in view. -/
structure Capturing (V : View) (names : List Ident) (captures : List (Ident × VarId)) : Prop where
  inView : ∀ b ∈ captures, V.vars b.2
  names : ∀ x, x ∈ captures.map (·.1) ↔ x ∈ names

theorem agree_decided {c : Store → Except VarId Bool} {f : Bool → Exec α} {g : Bool → Exec β} {R : View → α → β → Prop}
    (hc : M.valid → ∀ s : Store, s.WellFormed → (∀ v, V.vars v → v < s.slots.size) → ∀ x, c s = .error x →
      s.slots[x]? = some .unbound)
    (hf : ∀ b, Agree .looks M V C (f b) (g b) R) :
  Agree .looks M V C (withStore c >>= fun r => decided r >>= f) (withStore c >>= fun r => decided r >>= g) R
  := by
  intro σ hσ
  apply agreeFrom_withStore
  cases hr : c σ.store with
  | ok b => exact hf b σ hσ
  | error x =>
    refine (agreeFrom_suspend hσ fun hvalid => ?_).bind fun _ _ _ _ _ _ _ _ => False.elim
    exact hc hvalid _ (hσ.sound hvalid).1.wellFormed (hσ.sound hvalid).2 x hr

theorem agree_patternFeature {p : FeaturePattern} (h : ∀ x ∈ p.pinned?.toList, SameVar V env env' x x) :
  Agree .looks M V C (patternFeature env p) (patternFeature env' p) (Equal V)
  := by
  cases p with
  | escaped name => exact agree_feature (.ident ⟨h name (mem_singleton_self _), Iff.rfl⟩)
  | lit =>
    rw [patternFeature, patternFeature]
    split
    · exact agree_pure ⟨rfl, rfl, trivial⟩
    · exact agree_fault rfl

theorem agree_patternLabel {p : Option FeaturePattern} (h : ∀ x ∈ (p.bind (·.pinned?)).toList, SameVar V env env' x x) :
  Agree .looks M V C (patternLabel env p) (patternLabel env' p) (Equal V)
  := by
  cases p with
  | none => exact agree_pure ⟨rfl, rfl, trivial⟩
  | some =>
    apply (agree_patternFeature h).next
    intro f _
    exact agree_pure ⟨rfl, rfl, trivial⟩

theorem Capturing.nil :
  Capturing V [] []
  := ⟨by simp, by simp⟩

theorem Capturing.mono (h : Capturing V names captures) (hle : V ≤ W) :
  Capturing W names captures
  := ⟨fun b hb => hle.vars _ (h.inView b hb), h.names⟩

theorem Capturing.push (h : Capturing V names captures) (name : Ident) (hv : V.vars v) :
  Capturing V (names ++ [name]) (captures ++ [(name, v)]) where
  inView := forall_mem_append.mpr ⟨h.inView, forall_mem_singleton.mpr hv⟩
  names x := by simp [← h.names]

theorem Capturing.again (h : Capturing V names captures) {name : Ident} (hname : captures.lookup name = some v) :
  Capturing V (names ++ [name]) captures where
  inView := h.inView
  names x := by
    have hmem : name ∈ names := by
      rw [← h.names]
      exact mem_map.mpr ⟨_, Env.mem_of_lookup hname, rfl⟩
    rw [h.names, mem_append, mem_singleton]
    exact ⟨.inl, fun h => h.elim id fun h => h ▸ hmem⟩

theorem agree_matchLeaf (hcaptures : Capturing V names captures) (hfield : field.Fits M V)
    (h : ∀ x ∈ p.pinned?.toList, SameVar V env env' x x) :
  Agree .looks M V C (matchLeaf env captures field p) (matchLeaf env' captures field p)
    (Same fun W r => Capturing W (names ++ p.capture?.toList) r.2)
  := by
  cases p with
  | lit =>
    apply (agree_read _).next
    intro r _
    exact agree_pure ⟨rfl, by simpa [LeafPattern.capture?] using hcaptures⟩
  | ident name =>
    apply (agree_newBound hfield.toValue).bind
    rintro W hW v _ ⟨rfl, hv⟩
    split
    next first hname =>
      apply (agree_read _).next
      intro r _
      exact agree_pure ⟨rfl, (hcaptures.again hname).mono hW⟩
    next => exact agree_pure ⟨rfl, (hcaptures.mono hW).push name hv⟩
  | escaped name =>
    apply (agree_lookup (h name (mem_singleton_self _))).next
    intro v _
    apply (agree_read _).next
    intro r _
    exact agree_pure ⟨rfl, by simpa [LeafPattern.capture?] using hcaptures⟩

theorem unbound_of_matchLeaf (hvalid : σ.store.Valid)
    (hvars : ∀ v, V.vars v → v < σ.store.slots.size) (hcaptures : Capturing V names captures)
    (hwithin : field.toValue.Within σ.store) (h : ∀ x ∈ p.pinned?.toList, SameVar V env env' x x)
    (hrun : (matchLeaf env captures field p).Returns σ (.error x, captures') σ') :
  σ'.store.slots[x]? = some .unbound
  := by
  have hs := hvalid.wellFormed
  -- the comparison that is the last step of the match
  have hread {σ₁ : Session} {c : Store → Except VarId Bool} (hc : ∀ y, c σ₁.store = .error y →
      σ₁.store.slots[y]? = some .unbound)
      (hrun : (do return (← withStore c, captures) : Exec _).Returns σ₁ (.error x, captures') σ') :
      σ'.store.slots[x]? = some .unbound := by
    cases congrArg Prod.snd hrun
    exact hc x (congrArg (·.1) (Except.ok.inj (congrArg Prod.fst hrun)))
  cases p with
  | lit l => exact hread (fun _ => Store.unbound_of_equals hs hwithin (show (Value.lit l).Within _ from trivial)) hrun
  | ident =>
    obtain ⟨v, _, hnew, hrest⟩ := hrun.of_bind
    cases hnew
    obtain ⟨hgrown, hv, -⟩ := hs.newBound hwithin
    split at hrest
    next first hfirst =>
      have hwithin : (Value.var first).Within σ.store := hvars _ (hcaptures.inView _ (Env.mem_of_lookup hfirst))
      exact hread (fun _ => Store.unbound_of_equals hgrown.wellFormed (hgrown.within hwithin) hv) hrest
    next => cases hrest
  | escaped name =>
    obtain ⟨v, _, hlookup, hrest⟩ := hrun.of_bind
    cases h name (mem_singleton_self _) with
    | missing _ hx =>
      rw [lookup, hx] at hlookup
      cases hlookup
    | bound w hx _ hw =>
      rw [lookup, hx] at hlookup
      cases hlookup
      have hpinned : (Value.var v).Within σ.store := hvars v hw
      exact hread (fun _ => Store.unbound_of_entails hs hpinned hwithin) hrest

theorem agreeFrom_matchFields {r : Record} {waiting : Option VarId}
    {fields : List (FeaturePattern × LeafPattern)} (hσ : σ.Orderly M V C)
    (hr : ∀ f ∈ r.fields, f.2.Fits M V) (hcaptures : Capturing V names captures)
    (hwaiting : M.valid → ∀ x, waiting = some x → σ.store.slots[x]? = some .unbound)
    (h : ∀ f ∈ fields, ∀ x ∈ f.1.pinned?.toList ++ f.2.pinned?.toList, SameVar V env env' x x) :
  AgreeFrom .looks M V C σ (matchFields env r captures waiting fields) (matchFields env' r captures waiting fields)
    (Same fun W r => ∀ captures ∈ r, Capturing W (names ++ fields.filterMap (·.2.capture?)) captures)
  := by
  induction fields generalizing V names captures waiting σ with
  | nil =>
    cases waiting with
    | some v => exact agreeFrom_suspend hσ fun hvalid => hwaiting hvalid v rfl
    | none =>
      refine agree_pure ⟨rfl, ?_⟩ σ hσ
      simpa using hcaptures
  | cons field rest ih =>
    obtain ⟨f, leaf⟩ := field
    obtain ⟨hfield, hrest⟩ := forall_mem_cons.mp h
    rw [forall_mem_append] at hfield
    have hnames : names ++ ((f, leaf) :: rest).filterMap (·.2.capture?) =
        names ++ leaf.capture?.toList ++ rest.filterMap (·.2.capture?) := by
      cases hleaf : leaf.capture? <;> simp [hleaf]
    rw [hnames]
    refine (agree_patternFeature hfield.1 σ hσ).bind ?_
    rintro _ σ₁ hσ₁ - feature _ - hadds₁ ⟨rfl, rfl, -⟩
    cases hcontent : r.get? feature with
    | none => exact agree_pure ⟨rfl, by simp⟩ σ₁ hσ₁
    | some =>
      have hcontent := get?_forall hr hcontent
      refine (agree_matchLeaf hcaptures hcontent hfield.2 σ₁ hσ₁).bind ?_
      rintro W σ₂ hσ₂ hgrown ⟨outcome, _⟩ _ hrun₂ hadds₂ ⟨rfl, hcaptures'⟩
      have hr : ∀ f ∈ r.fields, f.2.Fits M W := fun f hf => (hr f hf).mono hgrown.store.le
      have hrest : ∀ f ∈ rest, ∀ x ∈ f.1.pinned?.toList ++ f.2.pinned?.toList,
          SameVar W env env' x x := fun f hf x hx => (hrest f hf x hx).mono hgrown.store.le
      have hwaiting (hvalid : M.valid) (x : VarId) (hx : waiting = some x) :
          σ₂.store.slots[x]? = some .unbound :=
        Store.ContinuedBy.getElem?_eq (Session.AddsVars.trans hadds₁ hadds₂).store.slots (hwaiting hvalid x hx)
      match outcome with
      | .ok true => exact ih hσ₂ hr hcaptures' hwaiting hrest
      | .ok false => exact agree_pure ⟨rfl, by simp⟩ σ₂ hσ₂
      | .error y =>
        refine ih hσ₂ hr hcaptures' (fun hvalid x hx => ?_) hrest
        rcases Option.or_eq_some_iff.mp hx with hx | ⟨-, hx⟩
        · exact hwaiting hvalid x hx
        · cases hx
          obtain ⟨hstore, hvars⟩ := hσ₁.sound hvalid
          exact unbound_of_matchLeaf hstore hvars hcaptures (hcontent.toValue.within hvalid _ hvars) hfield.2 hrun₂

theorem agree_matchRecord {p : RecordPattern} {value : Value} (hv : value.Fits M V)
    (h : ∀ x ∈ p.pinned, SameVar V env env' x x) :
  Agree .looks M V C (matchRecord env value p) (matchRecord env' value p)
    (Same fun W r => ∀ captures ∈ r, Capturing W p.captures captures)
  := by
  rw [RecordPattern.pinned, forall_mem_append, forall_mem_flatMap] at h
  apply (agree_determined hv).next
  intro d _
  cases d with
  | scalar => exact agree_pure ⟨rfl, by simp⟩
  | record id =>
    apply (agree_patternLabel h.1).next
    intro _ _
    apply (agree_withStore (·.record id) (P := fun r => ∀ f ∈ r.fields, f.2.Fits M V)
      fun s hs hfits => fits_fields hs hfits id).next
    intro r hr
    split
    · exact agree_pure ⟨rfl, by simp⟩
    · split
      · exact agree_pure ⟨rfl, by simp⟩
      · exact fun σ hσ => agreeFrom_matchFields hσ hr .nil nofun h.2

theorem agree_matchPattern {p : Pattern} {value : Value} (hv : value.Fits M V)
    (h : ∀ x ∈ p.pinned, SameVar V env env' x x) :
  Agree .looks M V C (matchPattern env value p) (matchPattern env' value p)
    (Same fun W r => ∀ captures ∈ r, Capturing W p.captures captures)
  := by
  have hdecided (b : Bool) : Agree .looks M V C (pure (if b then some [] else none : Option (List (Ident × VarId))))
      (pure (if b then some [] else none)) (Same fun W r => ∀ captures ∈ r, Capturing W [] captures) := by
    refine agree_pure ⟨rfl, ?_⟩
    cases b with
    | false => simp
    | true =>
      rintro _ ⟨⟩
      exact .nil
  cases p with
  | record => exact agree_matchRecord hv h
  | ident name =>
    apply (agree_newBound hv).bind
    rintro W - x _ ⟨rfl, hx⟩
    refine agree_pure ⟨rfl, ?_⟩
    rintro _ ⟨⟩
    exact Capturing.nil.push name hx
  | lit pattern =>
    apply (agree_determined hv).next
    intro d _
    refine agree_decided (fun _ s hs _ x hx => ?_) hdecided
    cases d with
    | scalar a =>
      have hright : (Value.lit pattern).Within s := trivial
      exact Store.unbound_of_equals hs (show (Value.scalar a).Within s from trivial) hright hx
    | record => simp [Store.equals, Store.compareAll, Store.resolve, Value.lit, Value.scalar] at hx
  | escaped name =>
    apply (agree_lookup (h name (mem_singleton_self _))).next
    intro pinned hpinned
    refine agree_decided (fun hvalid s hs hvars x hx => ?_) hdecided
    have hleft : (Value.var pinned).Within s := hvars pinned hpinned
    exact Store.unbound_of_entails hs hleft (hv.within hvalid s hvars) hx

end Match

end Exec

end ActorLang
