import ActorLang.Store.Basic

/-!
# What a traversal has not seen

Traversals of cyclic data end because they expand nothing twice: the number of things that they
have not seen goes down.
-/

namespace ActorLang

def unseen {α : Type} [BEq α] (all seen : List α) : Nat :=
  (all.filter (!seen.contains ·)).length

theorem unseen_cons_lt {α : Type} [BEq α] [LawfulBEq α] {all seen : List α} {a : α}
    (hall : a ∈ all) (hseen : seen.contains a = false) :
  unseen all (a :: seen) < unseen all seen
  := by
  have hmem : a ∈ all.filter (!seen.contains ·) := by
    simp_all [List.mem_filter]
  have hfilter : all.filter (!(a :: seen).contains ·)
      = (all.filter (!seen.contains ·)).filter (· != a) := by
    rw [List.filter_filter]
    apply List.filter_congr
    intro x _
    by_cases hx : x = a <;> simp [hx, bne]
  unfold unseen
  rw [hfilter]
  apply List.length_filter_lt_length_iff_exists.mpr
  exact ⟨a, hmem, by simp⟩

namespace Store

def recordIds (s : Store) : List RecordId := List.range s.records.size

def recordPairs (s : Store) : List (RecordId × RecordId) :=
  s.recordIds.flatMap fun a => s.recordIds.map (a, ·)

theorem mem_recordPairs {s : Store} {a b : RecordId} :
  (a, b) ∈ s.recordPairs ↔ a < s.records.size ∧ b < s.records.size
  := by
  simp [recordPairs, recordIds]

def varIds (s : Store) : List VarId := List.range s.slots.size

end Store

end ActorLang
