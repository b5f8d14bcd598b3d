import ActorLang.Proofs.Lowering.Names
import ActorLang.Token.Scan

/-!
# The names among tokens

A name that is read from a text is a written one: `$` starts no name.
-/

namespace ActorLang

/-- A token that is a name is a written one. -/
def Token.Spelled : Token → Prop
  | .ident name => Written name
  | _ => True

/-- What stands at the front of a text is no generated name. -/
def Scanned.Spelled : Scanned → Prop
  | .token t => t.Spelled
  | _ => True

theorem nameToken_spelled {c : Char} {cs : List Char} (hc : isNameStart c = true) :
  (nameToken (String.ofList (c :: cs))).Spelled
  := by
  rw [nameToken]
  split
  · trivial
  · split
    · trivial
    · rw [Token.Spelled, Written]
      simp only [String.toList_ofList, List.head?_cons, ne_eq, Option.some.injEq]
      rintro rfl
      cases hc

theorem scanNumber_spelled (cs : List Char) :
  (scanNumber cs).1.Spelled
  := by
  have hmap {α : Type} {o : Option α} {f : α → Token} (hf : ∀ a, (f a).Spelled) :
      (Scanned.ofOption (o.map f)).Spelled := by
    cases o with
    | none => trivial
    | some a => exact hf a
  have hint (digits : List Char) : (Scanned.ofOption (intToken? digits)).Spelled := by
    rw [intToken?]
    split
    · trivial
    · exact hmap fun _ => trivial
  rw [scanNumber, numberBefore]
  repeat' split
  all_goals first | exact hint _ | exact hmap fun _ => trivial

theorem scanMark_spelled (c : Char) (cs : List Char) :
  (scanMark c cs).1.Spelled
  := by
  unfold scanMark
  dsimp only
  split
  all_goals first | trivial | (split <;> trivial)

theorem scanChar_spelled (cs : List Char) :
  (scanChar cs).1.Spelled
  := by
  unfold scanChar
  split
  all_goals first | trivial | (split <;> trivial)

theorem scanString_spelled (quote : Char) (cs : List Char) :
  (scanString quote cs).1.Spelled
  := by
  unfold scanString
  split <;> trivial

theorem scan_spelled (c : Char) (cs : List Char) :
  (scan c cs).1.Spelled
  := by
  unfold scan
  split
  · trivial
  · split
    case isTrue hc => exact nameToken_spelled hc
    · split
      · exact scanNumber_spelled (c :: cs)
      · split
        · exact scanString_spelled c cs
        · split
          · exact scanChar_spelled cs
          · split
            · trivial
            · split <;> trivial
            · exact scanMark_spelled _ _

theorem tokensFrom_spelled {position : Nat} {cs : List Char} {tokens : List Lexeme}
    (h : tokensFrom position cs = .ok tokens) :
  ∀ l ∈ tokens, l.token.Spelled
  := by
  induction hlength : cs.length using Nat.strongRecOn generalizing position cs tokens with
  | ind _ ih =>
    subst hlength
    cases cs with
    | nil =>
      rw [tokensFrom] at h
      cases h
      simp
    | cons c cs =>
      have hspelled := scan_spelled c cs
      rw [tokensFrom] at h
      generalize scan c cs = r at h hspelled
      obtain ⟨scanned, n⟩ := r
      cases scanned with
      | bad => cases h
      | trivia => exact ih _ length_drop_lt h rfl
      | token =>
        dsimp only at h
        cases hrest : tokensFrom (position + byteLength (c :: cs.take n)) (cs.drop n) with
        | error =>
          rw [hrest] at h
          cases h
        | ok =>
          rw [hrest] at h
          cases h
          rw [List.forall_mem_cons]
          exact ⟨hspelled, ih _ length_drop_lt hrest rfl⟩

end ActorLang
