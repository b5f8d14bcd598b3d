import ActorLang.Proofs.Store.Ground
import ActorLang.Proofs.Store.MostGeneral
import ActorLang.Proofs.Store.Portability

/-!
# Traversals of cyclic data come to an end

The loops of unification, comparison and copying, one round at a time and without any bound.  No
pair of records is expanded twice, and no variable is opened twice, whatever the cycles in the store
are.
-/

namespace ActorLang

open List

/-- The loop comes to an end with a result, and its states on the way there satisfy `I`. -/
inductive Finishes {σ ρ : Type} (round : σ → σ ⊕ ρ) (I : σ → Prop) : σ → ρ → Prop where
  | stop {x r} (hx : I x) (h : round x = .inr r) : Finishes round I x r
  | next {x y r} (hx : I x) (h : round x = .inl y) (rest : Finishes round I y r) :
      Finishes round I x r

namespace Store

/-- Where a loop over pairs of values has come to. -/
structure Traversal (σ : Type) where
  state : σ
  seen : List (RecordId × RecordId) := []
  work : List (Value × Value)

/-- No pair of records has been expanded twice, and all of them are in a set. -/
structure Traversal.Fresh {σ : Type} (P : Value → Prop) (t : Traversal σ) : Prop where
  nodup : t.seen.Nodup
  mem : ∀ p ∈ t.seen, P (.datum (.record p.1)) ∧ P (.datum (.record p.2))

theorem Traversal.Fresh.cons {σ : Type} {P : Value → Prop} {x : σ} {seen : List (RecordId × RecordId)}
    {work work' : List (Value × Value)} {a b : RecordId} (h : Fresh P (.mk x seen work)) (hnew : ¬seen.contains (a, b))
    (ha : P (.datum (.record a))) (hb : P (.datum (.record b))) :
  Fresh P (.mk x ((a, b) :: seen) work') where
  nodup := nodup_cons.mpr ⟨fun hmem => hnew (contains_iff_mem.mpr hmem), h.nodup⟩
  mem := forall_mem_cons.mpr ⟨⟨ha, hb⟩, h.mem⟩

/-- One round of unification. -/
def unifyRound : Traversal Store → Traversal Store ⊕ (Except Mismatch Unit × Store)
  | ⟨s, _, []⟩ => .inr (.ok (), s)
  | ⟨s, seen, (left, right) :: rest⟩ =>
    match s.resolve left, s.resolve right with
    | .var x, .var y => .inl ⟨if x = y then s else s.setSlot x (.link y), seen, rest⟩
    | .var x, .datum d => .inl ⟨s.setSlot x (.bound d), seen, rest⟩
    | .datum d, .var x => .inl ⟨s.setSlot x (.bound d), seen, rest⟩
    | .datum (.scalar a), .datum (.scalar b) =>
      if a.same b then .inl ⟨s, seen, rest⟩ else .inr (.error (s.mismatch (.scalar a) (.scalar b)), s)
    | .datum (.record a), .datum (.record b) =>
      if a = b ∨ seen.contains (a, b) then .inl ⟨s, seen, rest⟩
      else match (s.record a).fieldPairs? (s.record b) with
        | none => .inr (.error (s.mismatch (.record a) (.record b)), s)
        | some pairs => .inl ⟨s, (a, b) :: seen, pairs.reverse ++ rest⟩
    | .datum a, .datum b => .inr (.error (s.mismatch (.datum a) (.datum b)), s)

/-- One round of a comparison. -/
def compareRound (s : Store) (c : Comparison) : Traversal (Option VarId) → Traversal (Option VarId) ⊕ Except VarId Bool
  | ⟨some v, _, []⟩ => .inr (.error v)
  | ⟨none, _, []⟩ => .inr (.ok true)
  | ⟨waiting, seen, (left, right) :: rest⟩ =>
    match s.resolve left, s.resolve right with
    | .datum (.scalar a), .datum (.scalar b) => if a.same b then .inl ⟨waiting, seen, rest⟩ else .inr (.ok false)
    | .datum (.record a), .datum (.record b) =>
      if a = b ∨ seen.contains (a, b) then .inl ⟨waiting, seen, rest⟩
      else match c.fields? (s.record a) (s.record b) with
        | none => .inr (.ok false)
        | some pairs => .inl ⟨waiting, (a, b) :: seen, pairs.reverse ++ rest⟩
    | .datum _, .datum _ => .inr (.ok false)
    | a, b => .inl ⟨waiting.or (c.waits a b), seen, rest⟩

/-- One round of the search for what a copy takes along. -/
def searchRound (s : Store) : List VarId × List Visit → (List VarId × List Visit) ⊕ Search
  | (found, []) => .inr { found }
  | (found, .cell :: rest) => .inr (.fail found rest .cell)
  | (found, .close _ :: rest) => .inl (found, rest)
  | (found, .var v :: rest) =>
    if found.contains (s.root v) then .inl (found, rest)
    else match s.slots[s.root v]? with
      | some (.bound d) => .inl (s.root v :: found, s.datumVisits d ++ .close (s.root v) :: rest)
      | _ => .inr (.fail found rest .unbound)

section

variable {s : Store} {P : Value → Prop} {seen : List (RecordId × RecordId)} {work : List (Value × Value)}

theorem ends_unifyAll (hs : s.WellFormed) (hP : s.Closed P) (hwork : PairsIn P work)
    (hseen : Traversal.Fresh P (.mk s seen work)) :
  Finishes unifyRound (Traversal.Fresh P) ⟨s, seen, work⟩ (s.unifyAll seen work)
  := by
  fun_induction unifyAll s seen work with
  | case1 => exact .stop hseen rfl
  | case2 s _ _ _ _ x hr hl ih
  | case6 s _ _ _ _ a b hr hl _ ih
  | case8 s _ _ _ _ a b hr hl _ ih =>
    exact .next hseen (by simp_all [unifyRound]) (ih hs hP (pairsIn_cons.mp hwork).2 ⟨hseen.1, hseen.2⟩)
  | case3 s _ left right _ x y hr hl hne ih =>
    obtain ⟨⟨hPl, hPr⟩, hrest⟩ := pairsIn_cons.mp hwork
    have hassigns : s.Assigns left right x (.var y) := ⟨.inl ⟨hl, hr⟩, by simpa using Ne.symm hne⟩
    obtain ⟨hs', hP'⟩ := hP.assign hs hassigns hPl hPr
    exact .next hseen (by simp_all [unifyRound]) (ih hs' hP' hrest ⟨hseen.1, hseen.2⟩)
  | case4 s _ left right _ x d hr hl ih | case5 s _ left right _ d x hr hl ih =>
    obtain ⟨⟨hPl, hPr⟩, hrest⟩ := pairsIn_cons.mp hwork
    have hassigns : s.Assigns left right x (.datum d) := ⟨by simp [hl, hr], by simp⟩
    obtain ⟨hs', hP'⟩ := hP.assign hs hassigns hPl hPr
    exact .next hseen (by simp_all [unifyRound]) (ih hs' hP' hrest ⟨hseen.1, hseen.2⟩)
  | case7 | case9 | case12 => exact .stop hseen (by simp_all [unifyRound])
  | case10 s _ _ _ _ a b hr hl hnew _ hpairs _ ih =>
    obtain ⟨⟨hPl, hPr⟩, hrest⟩ := pairsIn_cons.mp hwork
    have ha := hl ▸ hP.resolve _ hPl
    have hb := hr ▸ hP.resolve _ hPr
    exact .next hseen (by simp_all [unifyRound]) (ih hs hP (hP.pairsIn_fields ha hb hpairs hrest)
      (hseen.cons (fun h => hnew (.inr h)) ha hb))
  | case11 s _ _ _ _ a b hr hl _ _ _ hlt =>
    obtain ⟨⟨hPl, hPr⟩, -⟩ := pairsIn_cons.mp hwork
    exact (hlt ⟨hP.record_lt hPl hl, hP.record_lt hPr hr⟩).elim

theorem ends_compareAll {c : Comparison} (hc : c.FieldWise) (hP : s.Closed P) {waiting : Option VarId}
    (hwork : PairsIn P work) (hseen : Traversal.Fresh P (.mk waiting seen work)) :
  Finishes (s.compareRound c) (Traversal.Fresh P) ⟨waiting, seen, work⟩ (s.compareAll c seen waiting work)
  := by
  fun_induction compareAll s c seen waiting work with
  | case1 | case2 => exact .stop hseen rfl
  | case3 _ _ _ _ _ a b hr hl _ ih
  | case5 _ _ _ _ _ a b hr hl _ ih
  | case10 _ _ _ _ _ _ _ _ ih =>
    exact .next hseen (by simp_all [compareRound]) (ih (pairsIn_cons.mp hwork).2 ⟨hseen.1, hseen.2⟩)
  | case4 | case6 | case9 => exact .stop hseen (by simp_all [compareRound])
  | case7 _ _ _ _ _ a b hr hl hnew _ hpairs _ ih =>
    obtain ⟨⟨hPl, hPr⟩, hrest⟩ := pairsIn_cons.mp hwork
    have ha := hl ▸ hP.resolve _ hPl
    have hb := hr ▸ hP.resolve _ hPr
    refine .next hseen (by simp_all [compareRound]) (ih (forall_mem_append.mpr ⟨fun p hp => ?_, hrest⟩)
      (hseen.cons (fun h => hnew (.inr h)) ha hb))
    have hmem := hc _ _ _ hpairs p (mem_reverse.mp hp)
    exact ⟨hP.fields a ha _ hmem.1, hP.fields b hb _ hmem.2⟩
  | case8 _ _ _ _ _ a b hr hl _ _ _ hlt =>
    obtain ⟨⟨hPl, hPr⟩, -⟩ := pairsIn_cons.mp hwork
    exact (hlt ⟨hP.record_lt hPl hl, hP.record_lt hPr hr⟩).elim

/-- No variable has been opened twice, and the value leads to all of them. -/
structure Once (s : Store) (v : Value) (t : List VarId × List Visit) : Prop where
  nodup : t.1.Nodup
  mem : ∀ x ∈ t.1, ∃ y, s.root y = x ∧ s.LeadsTo v (.var y)

theorem ends_reach {v : Value} {found : List VarId} {work : List Visit} (hfound : s.Once v (found, work))
    (hwork : ∀ visit ∈ work, s.Relevant v visit) :
  Finishes s.searchRound (s.Once v) (found, work) (s.reach found work)
  := by
  fun_induction reach s found work with
  | case1 | case2 => exact .stop hfound rfl
  | case3 _ x _ ih => exact .next hfound rfl (ih ⟨hfound.1, hfound.2⟩ (forall_mem_cons.mp hwork).2)
  | case4 _ x _ _ ih =>
    exact .next hfound (by simp_all [searchRound]) (ih ⟨hfound.1, hfound.2⟩ (forall_mem_cons.mp hwork).2)
  | case5 _ x _ hnew d hd ih =>
    obtain ⟨hx, hrest⟩ := forall_mem_cons.mp hwork
    refine .next hfound (by simp_all [searchRound]) (ih ⟨?_, ?_⟩ (forall_mem_append.mpr ⟨?_, ?_⟩))
    · exact nodup_cons.mpr ⟨fun hmem => hnew (contains_iff_mem.mpr hmem), hfound.1⟩
    · exact forall_mem_cons.mpr ⟨⟨x, rfl, hx⟩, hfound.2⟩
    · refine fun visit => LeadsTo.relevant hx ?_
      simp only [Store.resolve, hd]
    · exact forall_mem_cons.mpr ⟨trivial, hrest⟩
  | case6 => exact .stop hfound (by simp_all [searchRound])

end

/-- On any data, unification and comparison end, and expand each pair of the records in reach at most once; a copy
ends, and makes one variable for each of those in reach. -/
theorem traversals_end {s : Store} (hs : s.WellFormed) {left right : Value} (hl : left.Within s) (hr : right.Within s) :
  Finishes unifyRound (Traversal.Fresh fun v => s.Reaches left v ∨ s.Reaches right v) ⟨s, [], [(left, right)]⟩
    (s.unify left right) ∧
  Finishes (s.compareRound .equality) (Traversal.Fresh fun v => s.Reaches left v ∨ s.Reaches right v)
    ⟨none, [], [(left, right)]⟩ (s.equals left right) ∧
  Finishes (s.compareRound .entailment) (Traversal.Fresh fun v => s.Reaches left v ∨ s.Reaches right v)
    ⟨none, [], [(left, right)]⟩ (s.entails left right) ∧
  ∃ r, Finishes s.searchRound (s.Once left) ([], s.valueVisits left) r ∧
    (∀ reason, s.exportValue left = .error reason ↔ r.failure = some reason) ∧
    ∀ t : Store, (t.importValue ⟨s, left⟩).2.slots.size = t.slots.size + r.found.length
  := by
  have hP := hs.closed_reaches hl hr
  have hwork : PairsIn (fun v => s.Reaches left v ∨ s.Reaches right v) [(left, right)] :=
    forall_mem_singleton.mpr ⟨.inl .self, .inr .self⟩
  refine ⟨ends_unifyAll hs hP hwork ⟨nodup_nil, forall_mem_nil _⟩,
    ends_compareAll Comparison.equality_fieldWise hP hwork ⟨nodup_nil, forall_mem_nil _⟩,
    ends_compareAll Comparison.entailment_fieldWise hP hwork ⟨nodup_nil, forall_mem_nil _⟩,
    _, ends_reach ⟨nodup_nil, forall_mem_nil _⟩ fun visit => s.relevant_valueVisits left,
    fun reason => exportValue_eq_error_iff, fun t => ?_⟩
  obtain ⟨-, hsize, -⟩ := s.slotCopy_copyVars _ _ (s.reach [] (s.valueVisits left)).found.reverse t
  rw [importValue, (s.addsContent_copyInto left t).slots, copyFound, hsize, length_reverse]

theorem traversals_end_rings :
  (rings .unbound).WellFormed ∧ Finishes unifyRound
    (Traversal.Fresh fun v => (rings .unbound).Reaches (.var 0) v ∨ (rings .unbound).Reaches (.var 1) v)
    ⟨rings .unbound, [], [(.var 0, .var 1)]⟩ ((rings .unbound).unify (.var 0) (.var 1))
  := ⟨rings_wellFormed, (traversals_end rings_wellFormed (by decide) (by decide)).1⟩

end Store

end ActorLang
