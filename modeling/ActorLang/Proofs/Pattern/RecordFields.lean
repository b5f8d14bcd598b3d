import ActorLang.Proofs.Pattern.Equivalence
import ActorLang.Proofs.Machine.Validity

/-!
# The fields of a record that matches

A match of a record pattern is decided field by field.  Fields that capture the same name have equal
values, and a pattern that is not partial has as many fields as the record; a feature that is
written twice counts twice.
-/

namespace ActorLang

open Kernel (Ident FeaturePattern LeafPattern RecordPattern)
open List

/-- The value of a record for a field of a pattern. -/
def Record.fieldAt? (r : Record) (s : Store) (env : Env) (p : FeaturePattern × LeafPattern) : Option Value :=
  r.valueAt? (p.1.feature? s env)

/-- The value is a record with a value for every field of the pattern, and no more of them unless the pattern is
partial.  Fields that capture the same name have equal values. -/
structure Kernel.RecordPattern.Fits (q : RecordPattern) (s : Store) (env : Env) (v : Value) (id : RecordId) : Prop where
  record : s.resolve v = .datum (.record id)
  size : q.isPartial = false → (s.record id).size = q.fields.length
  present : ∀ p ∈ q.fields, ((s.record id).fieldAt? s env p).isSome
  repeated : q.fields.Pairwise fun p p' => ∀ x, p.2 = .ident x → p'.2 = .ident x →
    ∀ a ∈ (s.record id).fieldAt? s env p, ∀ b ∈ (s.record id).fieldAt? s env p', s.equals a b = .ok true

theorem Store.GrownTo.extend {s t : Store} {env bindings : Env} (h : s.GrownTo t) (henv : env.Within s)
    (hbindings : bindings.Within t) :
  (env.extend bindings).Within t
  := Env.Within.extend (fun b hb => Nat.lt_of_lt_of_le (henv b hb) h.slots) hbindings

namespace Exec

open Lowering

variable {s : Store} {env env' : Env} {σ σ' : Session} {v : Value} {r : Record} {q : RecordPattern}
  {captures : List (Ident × VarId)} {known all : Captures} {fields : List (FeaturePattern × LeafPattern)}
  {names : List Ident}

/-- What has been captured stays so.  A field that captures a name matches if the name is new, or has been captured
for an equal value. -/
theorem known_of_leafOutcome? {leaf : LeafPattern} (h : leaf.outcome? s env known v = some (.ok true, all)) :
  (∀ x w, known.lookup x = some w → all.lookup x = some w) ∧
  ∀ x, leaf = .ident x → (∃ w, known.lookup x = some w ∧ all.lookup x = some w ∧ s.equals w v = .ok true) ∨
      known.lookup x = none ∧ all.lookup x = some v
  := by
  cases leaf with
  | lit =>
    obtain ⟨-, rfl⟩ := Prod.mk.inj (Option.some.inj h)
    exact ⟨fun _ _ hx => hx, nofun⟩
  | escaped =>
    obtain ⟨_, -, h⟩ := Option.bind_eq_some_iff.mp h
    obtain ⟨-, rfl⟩ := Prod.mk.inj (Option.some.inj h)
    exact ⟨fun _ _ hx => hx, nofun⟩
  | ident =>
    rw [LeafPattern.outcome?] at h
    split at h
    next first hfirst =>
      obtain ⟨hequals, rfl⟩ := Prod.mk.inj (Option.some.inj h)
      refine ⟨fun _ _ hx => hx, ?_⟩
      rintro _ ⟨⟩
      exact .inl ⟨first, hfirst, hfirst, hequals⟩
    next hnone =>
      cases h
      refine ⟨fun x w hx => by simp [lookup_append, hx], ?_⟩
      rintro _ ⟨⟩
      exact .inr ⟨hnone, by simp [lookup_append, hnone]⟩

theorem fields_of_outcome? (hs : s.WellFormed) (hvalues : ∀ w ∈ r.values, w.Within s)
    (hknown : Caught (·.Within s) names known)
    (h : Kernel.fieldsOutcome? s env r known none fields = some (some all)) :
  (∀ p ∈ fields, ∃ a, r.fieldAt? s env p = some a ∧ a.Within s ∧
    ∀ x, p.2 = .ident x → ∀ w, known.lookup x = some w → s.Bisimilar w a) ∧
  fields.Pairwise fun p p' => ∀ x, p.2 = .ident x → p'.2 = .ident x →
    ∀ a ∈ r.fieldAt? s env p, ∀ b ∈ r.fieldAt? s env p', s.Bisimilar a b
  := by
  induction fields generalizing known names with
  | nil => exact ⟨forall_mem_nil _, .nil⟩
  | cons field _ ih =>
    obtain ⟨f, leaf⟩ := field
    obtain ⟨_, value, _, hfeature, hget, hleaf, hrest⟩ := fieldsOutcome?_cons h
    have hvalue : r.fieldAt? s env (f, leaf) = some value.toValue := by
      simp [Record.fieldAt?, Record.valueAt?, hfeature, hget]
    have hfield : value.toValue.Within s := hvalues _ (Record.mem_values_of_get? hget)
    obtain ⟨hkeep, hident⟩ := known_of_leafOutcome? hleaf
    obtain ⟨hall, hpairs⟩ := ih (hknown.of_leaf hfield hleaf) hrest
    have hsame {w : Value} {x : Ident} (hw : known.lookup x = some w) (h : s.equals w value.toValue = .ok true) :
        s.Bisimilar w value.toValue :=
      (Store.equals_eq_ok_true_iff hs (hknown.values _ (Env.mem_of_lookup hw)) hfield).mp h
    refine ⟨forall_mem_cons.mpr ⟨⟨_, hvalue, hfield, ?_⟩, ?_⟩, .cons ?_ hpairs⟩
    · intro x hx w hw
      rcases hident x hx with ⟨_, hw', -, hequals⟩ | ⟨hnone, -⟩
      · cases hw'.symm.trans hw
        exact hsame hw hequals
      · cases hnone.symm.trans hw
    · intro p hp
      obtain ⟨a, ha, hwithin, hx⟩ := hall p hp
      exact ⟨a, ha, hwithin, fun x hp w hw => hx x hp w (hkeep x w hw)⟩
    · intro p hp x hx hy a ha b hb
      obtain ⟨_, hb', -, hbisimilar⟩ := hall p hp
      cases hvalue.symm.trans ha
      cases hb'.symm.trans hb
      rcases hident x hx with ⟨w, hw, hw', hequals⟩ | ⟨-, hw'⟩
      · exact (hsame hw hequals).symm.trans (hbisimilar x hy w hw')
      · exact hbisimilar x hy _ hw'

section

variable (hs : σ.store.WellFormed) (henv : env.Within σ.store)

include hs henv

/-- What a record has in common with a pattern that matches it. -/
theorem fits_of_matchRecord (h : (matchRecord env v q).Returns σ (some captures) σ') :
  ∃ id, q.Fits σ.store env v id
  := by
  have hanswers := answers_matchRecord hs hs.grownTo_self (σ := σ) (v := v) rfl
    fun x (_ : x ∈ q.pinned) => ⟨rfl, fun _ => henv.lookup⟩
  obtain ⟨_, t, houtcome, -, -, ⟨⟩⟩ := hanswers.of_returns h
  obtain ⟨id, hid, hsize, hfields⟩ := recordOutcome?_eq_some houtcome
  obtain ⟨hall, hpairs⟩ := fields_of_outcome? hs (hs.fields id) (.nil _) hfields
  refine ⟨id, hid, hsize, ?_, hpairs.imp_of_mem ?_⟩
  · intro p hp
    obtain ⟨a, ha, -⟩ := hall p hp
    simp [ha]
  · intro p p' hp hp' hsame x hx hx' a ha b hb
    obtain ⟨_, ha', hwithin, -⟩ := hall p hp
    obtain ⟨_, hb', hwithin', -⟩ := hall p' hp'
    cases ha'.symm.trans ha
    cases hb'.symm.trans hb
    exact (Store.equals_eq_ok_true_iff hs hwithin hwithin').mpr (hsame x hx hx' _ ha _ hb)

theorem within_of_matchPattern {p : Kernel.Pattern} (hv : v.Within σ.store)
    (h : (matchPattern env v p).Returns σ (some captures) σ') :
  σ.store.GrownTo σ'.store ∧ Env.Within σ'.store captures
  := by
  have hanswers := answers_matchPattern hs hv fun x (_ : x ∈ p.pinned) => ⟨rfl, fun _ => henv.lookup⟩
  obtain ⟨_, t, -, rfl, ht, hholds⟩ := hanswers.of_returns h
  cases hholds with
  | some hall => exact ⟨ht, forall₂_holds_forall hall (fun _ _ => trivial) fun _ _ hxy _ => hxy.within⟩

theorem fits_of_matchChildren {earlier later : List ChildPattern} {child : ChildPattern}
    (h : (matchChildren env (earlier ++ child :: later)).Returns σ (some env') σ') :
  ∃ env₁ σ₁ x id, (matchChildren env earlier).Returns σ (some env₁) σ₁ ∧ env₁.lookup child.arg = some x ∧
    child.pattern.Fits σ₁.store env₁ (.var x) id
  := by
  induction earlier generalizing env σ with
  | nil =>
    obtain ⟨w, σ₁, hw, hchild⟩ := Returns.of_bind h
    obtain ⟨x, hx, rfl, rfl⟩ := lookup_of_operand hw
    obtain ⟨_ | _, _, hmatch, hrest⟩ := Returns.of_bind hchild
    · cases hrest
    · obtain ⟨id, hfits⟩ := fits_of_matchRecord hs henv hmatch
      exact ⟨env, σ₁, x, id, rfl, hx, hfits⟩
  | cons _ _ ih =>
    obtain ⟨w, _, hw, hchild⟩ := Returns.of_bind h
    obtain ⟨x, hx, rfl, rfl⟩ := lookup_of_operand hw
    obtain ⟨_ | _, _, hmatch, hrest⟩ := Returns.of_bind hchild
    · cases hrest
    · obtain ⟨hgrown, hwithin⟩ := within_of_matchPattern (v := .var x) hs henv (henv.lookup hx) hmatch
      obtain ⟨env₁, σ₃, y, id, hearlier, hy, hfits⟩ := ih hgrown.wellFormed (hgrown.extend henv hwithin) hrest
      exact ⟨env₁, σ₃, y, id, hw.bind (hmatch.bind hearlier), hy, hfits⟩

end

/-- If a lowered pattern matches, then each record pattern of it, the root and the children, fits the record that it
was matched with: fields of one record pattern that capture the same name have equal values.  The value for a child,
and the names that it reads, are looked up in the environment that the patterns before it leave. -/
theorem matchLowered_fits {root : Kernel.Pattern} {children : List ChildPattern}
    (hs : σ.store.WellFormed) (henv : env.Within σ.store) (hv : v.Within σ.store)
    (h : (matchLowered env v root children).Returns σ (some env') σ') :
  (∀ q, root = .record q → ∃ id, q.Fits σ.store env v id) ∧
  ∀ earlier child later, children = earlier ++ child :: later →
    ∃ env₁ σ₁ x id, (matchLowered env v root earlier).Returns σ (some env₁) σ₁ ∧
      env₁.lookup child.arg = some x ∧ child.pattern.Fits σ₁.store env₁ (.var x) id
  := by
  obtain ⟨_ | _, _, hroot, hrest⟩ := Returns.of_bind h
  · cases hrest
  · constructor
    · rintro q rfl
      exact fits_of_matchRecord hs henv hroot
    · rintro _ _ _ rfl
      obtain ⟨hgrown, hwithin⟩ := within_of_matchPattern hs henv hv hroot
      obtain ⟨env₁, σ₂, x, id, hearlier, hx, hfits⟩ :=
        fits_of_matchChildren hgrown.wellFormed (hgrown.extend henv hwithin) hrest
      exact ⟨env₁, σ₂, x, id, hroot.bind hearlier, hx, hfits⟩

def onePair : Store where
  slots := #[.bound (.record 1)]
  records := #[.tuple none [.lit (.int32 1), .var 0], .tuple none [.lit (.int32 2), .lit (.int32 2)]]

def sameThrice : Pattern :=
  .mk default (.tuple none [.mk default (.ident "x"),
    .mk default (.tuple none [.mk default (.ident "x"), .mk default (.ident "x")] false)] false)

def sameThriceRoot : RecordPattern :=
  ⟨none, [(.lit (.int32 0), .ident "x"), (.lit (.int32 1), .ident "$v0")], false⟩

def sameThriceChild : ChildPattern where
  arg := "$v0"
  pattern := ⟨none, [(.lit (.int32 0), .ident "x"), (.lit (.int32 1), .ident "x")], false⟩

theorem matchLowered_sameThrice :
  ∃ env' σ', (matchLowered [] (.record 0) (.record sameThriceRoot) [sameThriceChild]).Returns (sessionOf onePair)
    (some env') σ'
  := by
  have hmatch : ((matchLowered [] (.record 0) (.record sameThriceRoot) [sameThriceChild]).run
      (sessionOf onePair)).1 = .ok (some [("x", 2), ("$v0", 0), ("x", 1)]) := by
    cbv
  exact ⟨_, _, Prod.ext hmatch rfl⟩

/-- In the child the name is captured twice, for equal values. -/
theorem matchLowered_fits_sameThrice :
  ∃ (env₁ : Env) (σ₁ : Session) (x : VarId) (id : RecordId), env₁.lookup "$v0" = some x ∧
    sameThriceChild.pattern.Fits σ₁.store env₁ (.var x) id
  := by
  obtain ⟨_, _, hmatch⟩ := matchLowered_sameThrice
  obtain ⟨-, hchild⟩ := matchLowered_fits (.of_no_link (by decide) (by decide)) (forall_mem_nil _) (by cbv) hmatch
  obtain ⟨env₁, σ₁, x, id, -, hx, hfits⟩ := hchild [] sameThriceChild [] rfl
  exact ⟨env₁, σ₁, x, id, hx, hfits⟩

/-- In the root the same name is captured for another value, which is not compared with these. -/
theorem captures_differ_sameThrice :
  sameThrice.lower {} = .ok ((.record sameThriceRoot, [sameThriceChild]), { next := 1 }) ∧
  (∃ env' σ', (matchLowered [] (.record 0) (.record sameThriceRoot) [sameThriceChild]).Returns (sessionOf onePair)
    (some env') σ') ∧
  onePair.equals (.lit (.int32 1)) (.lit (.int32 2)) = .ok false
  := by
  refine ⟨rfl, matchLowered_sameThrice, ?_⟩
  cbv

/-! ### Exact patterns -/

/-- A pattern that is not partial, and whose features are different, has all features of the record. -/
theorem features_of_fits {id : RecordId} (h : q.Fits s env v id) (hexact : q.isPartial = false)
    (hnodup : (q.fields.map (·.1.feature? s env)).Nodup) :
  q.fields.map (·.1.feature? s env) ~ (s.record id).fields.map (some ·.1)
  := by
  have hsubset : q.fields.map (·.1.feature? s env) ⊆ (s.record id).fields.map (some ·.1) := by
    intro g hg
    obtain ⟨p, hp, rfl⟩ := mem_map.mp hg
    obtain ⟨w, hw⟩ := Option.isSome_iff_exists.mp (h.present p hp)
    obtain ⟨f, hf, hw⟩ := Option.bind_eq_some_iff.mp hw
    obtain ⟨_, hfield, -⟩ := Option.bind_eq_some_iff.mp hw
    obtain ⟨found, hfound, -⟩ := Option.map_eq_some_iff.mp hfield
    have hfeature : found.1 = f := by
      simpa using find?_some hfound
    rw [hf, ← hfeature]
    exact mem_map.mpr ⟨found, mem_of_find?_eq_some hfound, rfl⟩
  apply (hnodup.subperm hsubset).perm_of_length_le
  rw [length_map, length_map]
  exact (h.size hexact).le

/-- A record that matches a pattern which is not partial has no fields but those of the pattern, if the pattern does
not write a feature twice. -/
theorem matchRecord_exact (hs : σ.store.WellFormed) (henv : env.Within σ.store)
    (hexact : q.isPartial = false) (hnodup : (q.fields.map (·.1.feature? σ.store env)).Nodup)
    (h : (matchPattern env v (.record q)).Returns σ (some captures) σ') :
  ∃ id, σ.store.resolve v = .datum (.record id) ∧
    ∀ field ∈ (σ.store.record id).fields, ∃ p ∈ q.fields,
      p.1.feature? σ.store env = some field.1
  := by
  obtain ⟨id, hfits⟩ := fits_of_matchRecord hs henv h
  refine ⟨id, hfits.record, ?_⟩
  intro field hfield
  apply mem_map.mp
  apply (features_of_fits hfits hexact hnodup).symm.subset
  exact mem_map.mpr ⟨field, hfield, rfl⟩

/-- The record `{'a': 1, 'b': 2}`, and a variable for `'b'`. -/
def oneTwo : Store where
  slots := #[.bound (.scalar (.lit (.str "b")))]
  records := #[⟨none, [(.str "a", .lit (.int32 1)), (.str "b", .lit (.int32 2))]⟩]

/-- The pattern `{feature: x, 'a': y}`. -/
def withA (feature : FeaturePattern) : RecordPattern :=
  ⟨none, [(feature, .ident "x"), (.lit (.str "a"), .ident "y")], false⟩

theorem matchPattern_withA {feature : FeaturePattern} (h : feature = .escaped "f" ∨ feature = .lit (.str "a")) :
  ∃ captures σ', (matchPattern [("f", 0)] (.record 0) (.record (withA feature))).Returns (sessionOf oneTwo)
    (some captures) σ'
  := by
  have hmatch : ((matchPattern [("f", 0)] (.record 0) (.record (withA feature))).run (sessionOf oneTwo)).1 =
      .ok (some [("x", 1), ("y", 2)]) := by
    rcases h with rfl | rfl <;> cbv
  exact ⟨_, _, Prod.ext hmatch rfl⟩

/-- The pattern `{~f: x, 'a': y}` has all fields of the record. -/
theorem matchRecord_exact_pinned :
  (∃ captures σ', (matchPattern [("f", 0)] (.record 0) (.record (withA (.escaped "f")))).Returns (sessionOf oneTwo)
    (some captures) σ') ∧
  ∀ field ∈ (oneTwo.record 0).fields, ∃ p ∈ (withA (.escaped "f")).fields,
    p.1.feature? oneTwo [("f", 0)] = some field.1
  := by
  have hs : oneTwo.WellFormed := .of_no_link (by decide) (by decide)
  obtain ⟨captures, σ', hmatch⟩ := matchPattern_withA (.inl rfl)
  obtain ⟨_, hid, hfields⟩ := matchRecord_exact hs (forall_mem_singleton.mpr (by cbv)) rfl (by decide +kernel) hmatch
  cases hid
  exact ⟨⟨captures, σ', hmatch⟩, hfields⟩

/-- The pattern `{'a': x, 'a': y}` is not partial and matches the record, but does not have its field `'b'`. -/
theorem exact_pattern_repeats_feature :
  (withA (.lit (.str "a"))).isPartial = false ∧
  (∃ captures σ', (matchPattern [("f", 0)] (.record 0) (.record (withA (.lit (.str "a"))))).Returns (sessionOf oneTwo)
    (some captures) σ') ∧
  ∃ field ∈ (oneTwo.record 0).fields, ∀ p ∈ (withA (.lit (.str "a"))).fields,
    p.1.feature? oneTwo [("f", 0)] ≠ some field.1
  := by
  refine ⟨rfl, matchPattern_withA (.inr rfl), (.str "b", .lit (.int32 2)), ?_⟩
  decide +kernel

end Exec

end ActorLang
