import ActorLang.Proofs.Control.Execution

/-!
# Accounts of final parts

`Noted` says which final parts are due at a frame: those of entries that the frame is inside,
innermost first, and for a handler those that have not been invoked since it was set, which is known
from the least height of the stack since the invocation.  `Books` says how often final parts have
been invoked: as long as one is due, not more often than throws have escaped, and afterwards once
more.
-/

namespace ActorLang

open List

/-- The final part has been invoked, and only once more than throws have escaped. -/
def Entry.Settled (e : Entry) : Prop := 0 < e.invoked ∧ e.invoked ≤ e.escapes + 1

namespace Control

/-- Of final parts that are not due, the least height of the stack since the last invocation. -/
abbrev Since := VarId → Option Nat

/-- The stack has had this height. -/
def Since.cap (since : Since) (height : Nat) : Since := fun v => (since v).map (min · height)

/-- The final part has been invoked on a stack of this height. -/
def Since.invoke (since : Since) (w : VarId) (height : Nat) : Since :=
  fun v => if v = w then some height else since v

/-- What a handler takes to be due is due again. -/
def Since.resume (since : Since) (taken : Due) : Since := fun v => if v ∈ taken then none else since v

/-- The final parts are those of entries, innermost first. -/
structure Listed (places : List (VarId × Nat)) (due : Due) : Prop where
  order : due.Pairwise (· > ·)
  entered : ∀ v ∈ due, ∃ n, (v, n) ∈ places

/-- What is due at a frame of this height, or where an activation begins.  As long as there is the
activation, what was not due when it began is not due.  If it is that of a final part, then the attempt
has no handler left there, or a jump is leaving it. -/
structure Noted (places : List (VarId × Nat)) (since : Since) (height : Nat) (mark : Mark)
    (due : Due) : Prop extends Listed places due where
  outside : ∀ v n, (v, n) ∈ places → height ≤ n → v ∉ due
  handled : mark = .handler → ∀ v n, (v, n) ∈ places → n < height →
    (v ∈ due ↔ ∀ m, since v = some m → height ≤ m)
  begun : ∀ a, mark = .entered a → ∀ v n, (v, n) ∈ places → n < height →
    ((∀ m, since v = some m → height < m) → v ∈ due) ∧
      (a.callee = some v → Bare n a.base ∨ Leaving n a.base)

section Noted

variable {places : List (VarId × Nat)} {since since' : Since} {height n : Nat} {mark : Mark}
  {due due' : Due} {v : VarId}

theorem listed_nil (places : List (VarId × Nat)) :
  Listed places []
  := ⟨.nil, forall_mem_nil _⟩

theorem Listed.suffix (h : Listed places due) (hsuffix : due' <:+ due) :
  Listed places due'
  := ⟨h.order.sublist hsuffix.sublist, fun v hv => h.entered v (hsuffix.subset hv)⟩

section

variable (h : Noted places since height mark due)

include h

theorem Noted.resince (hsince : ∀ v n, (v, n) ∈ places → n < height →
      ((∀ m, since v = some m → height ≤ m) ↔ ∀ m, since' v = some m → height ≤ m) ∧
        ((∀ m, since' v = some m → height < m) → ∀ m, since v = some m → height < m)) :
  Noted places since' height mark due where
  toListed := h.toListed
  outside := h.outside
  handled hh v n hv hn := (h.handled hh v n hv hn).trans (hsince v n hv hn).1
  begun a ha v n hv hn := (h.begun a ha v n hv hn).imp_left (· ∘ (hsince v n hv hn).2)

theorem Noted.cap (hle : height ≤ n) :
  Noted places (since.cap n) height mark due
  := by
  refine h.resince fun v m _ _ => ?_
  simp +contextual [Since.cap, hle]

theorem Noted.invoke {w : VarId} (hw : since w = none) (hle : height ≤ n) :
  Noted places (since.invoke w n) height mark due
  := by
  refine h.resince fun v m _ _ => ?_
  by_cases hvw : v = w
  · subst hvw
    simp [Since.invoke, hw, hle]
  · simp [Since.invoke, hvw]

theorem Noted.resume {taken : Due} (htaken : Noted places since (n + 1) .handler taken) (hle : height ≤ n) :
  Noted places (since.resume taken) height mark due
  := by
  refine h.resince fun v m hv hm => ?_
  by_cases hin : v ∈ taken
  · have hhandled := (htaken.handled rfl v m hv (by omega)).mp hin
    have hlow (k : Nat) (hk : since v = some k) : height < k := Nat.lt_of_le_of_lt hle (hhandled k hk)
    simpa [Since.resume, hin] using ⟨fun k hk => Nat.le_of_lt (hlow k hk), hlow⟩
  · simp [Since.resume, hin]

theorem Noted.trim (hle : height ≤ n) :
  Noted (places.filter (·.2 < n)) since height mark due where
  order := h.order
  entered v hv := by
    obtain ⟨m, hm⟩ := h.entered v hv
    refine ⟨m, mem_filter.mpr ⟨hm, decide_eq_true (Nat.lt_of_not_le fun hnm => ?_)⟩⟩
    exact h.outside v m hm (Nat.le_trans hle hnm) hv
  outside v m hv := h.outside v m (mem_of_mem_filter hv)
  handled hh v m hv := h.handled hh v m (mem_of_mem_filter hv)
  begun a ha v m hv := h.begun a ha v m (mem_of_mem_filter hv)

theorem Noted.enter (hle : height ≤ n) (hnew : ∀ m, (v, m) ∉ places) (hsince : ∀ u ≠ v, since' u = since u) :
  Noted ((v, n) :: places) since' height mark due
  := by
  have hold (u : VarId) (m : Nat) (hu : (u, m) ∈ (v, n) :: places) (hm : m < height) :
      (u, m) ∈ places ∧ since' u = since u := by
    rcases mem_cons.mp hu with heq | hmem
    · cases heq
      exact absurd hm (Nat.not_lt.mpr hle)
    · refine ⟨hmem, hsince u ?_⟩
      rintro rfl
      exact hnew m hmem
  refine ⟨⟨h.order, fun u hu => (h.entered u hu).imp fun _ => mem_cons_of_mem _⟩, ?_, ?_, ?_⟩
  · intro u m hu hm hdue
    rcases mem_cons.mp hu with heq | hu
    · cases heq
      obtain ⟨m, hm⟩ := h.entered v hdue
      exact hnew m hm
    · exact h.outside u m hu hm hdue
  · intro hh u m hu hm
    obtain ⟨hmem, hsame⟩ := hold u m hu hm
    rw [hsame]
    exact h.handled hh u m hmem hm
  · intro a ha u m hu hm
    obtain ⟨hmem, hsame⟩ := hold u m hu hm
    rw [hsame]
    exact h.begun a ha u m hmem hm

end

end Noted

/-! ### Stacks -/

section Typed

variable {G : Tags} {V : View} {places places' : List (VarId × Nat)} {since since' : Since}
  {acts : List Activation} {stack : Stack} {Λ : Labels} {caught due : Due} {v : VarId} {n : Nat}

section

variable (h : Typed G V (Noted places since) acts stack Λ caught due)

include h

theorem Typed.listed :
  Listed places caught ∧ Listed places due
  := h.forall_due (fun _ _ _ _ h => h.toListed) (listed_nil places)

theorem Typed.outside (hv : (v, n) ∈ places) (hn : stack.length ≤ n) :
  v ∉ due
  := by
  have hall := h.forall_due
    (fun height hle _ _ hdue => hdue.outside v n hv (Nat.le_trans hle hn)) not_mem_nil
  exact hall.2

theorem Typed.noted (hnoted : ∀ height ≤ stack.length, ∀ mark due,
      Noted places since height mark due → Noted places' since' height mark due) :
  Typed G V (Noted places' since') acts stack Λ caught due
  := h.mono G.le_refl V.le_refl hnoted

/-- Where a final part is called that is due, the attempt has no handler left, or a jump is leaving it. -/
theorem Typed.bare_or_leaving (hv : (v, n) ∈ places) (hsince : since v = none) (hdue : v ∉ due)
    (hcaught : due = caught ∨ v :: due <:+ caught) :
  Bare n stack ∨ Leaving n stack
  := by
  rcases hcaught with rfl | hless
  · refine .inl fun ⟨name, s, env, below⟩ hbelow => Nat.lt_of_not_le fun hle => ?_
    -- a handler inside the attempt takes the final part to be due
    obtain ⟨_, _, _, _, _, hc⟩ := h.throw hbelow
    have htaken := (hc.due.handled rfl v n hv (Nat.lt_succ_of_le hle)).mpr (by simp [hsince])
    obtain ⟨_, -, hheights, hagain⟩ := hc.dropped
    obtain ⟨a, ha, _, _, -, -, hmore, hnoted⟩ := hagain v htaken hdue
    refine hmore ((hnoted.begun a rfl v n hv ?_).1 (by simp [hsince]))
    exact Nat.lt_of_le_of_lt hle (hheights a ha)
  · refine .inr ?_
    obtain ⟨below, hjump, hbelow⟩ := h.jump?_eq fun hsuffix =>
      Nat.not_succ_le_self _ (hless.trans hsuffix).length_le
    refine ⟨below, hjump, ?_⟩
    cases hfound : Machine.handlerBelow stack with
    | none =>
      rw [h.uncaught hfound] at hless
      cases suffix_nil.mp hless
    | some found =>
      obtain ⟨_, _, _, outer⟩ := found
      obtain ⟨_, _, _, _, _, hc⟩ := h.throw hfound
      have hin := hc.suffix.subset (hless.subset (mem_cons_self ..))
      have hlow : n < outer.length + 1 := Nat.lt_of_not_le fun hle => hc.due.outside v n hv hle hin
      exact Nat.lt_of_lt_of_le hlow (Machine.handlerBelow_suffix (hbelow.trans hfound)).length_le

end

end Typed

/-! ### Counts -/

/-- How often a final part has been invoked, if it is due or has been invoked last. -/
def Entry.Counted (e : Entry) : Option Nat → Prop
  | none => e.invoked ≤ e.escapes
  | some _ => e.Settled

/-- The accounts of the entries, on a stack of this height. -/
structure Books (G : Tags) (entries left : List Entry) (since : Since) (due : Due) (height : Nat) :
    Prop where
  order : (entries.map (·.var)).Pairwise (· > ·)
  nested : (entries.map (·.height)).Pairwise (· ≥ ·)
  heights : ∀ e ∈ entries, e.height < height
  finals : ∀ e ∈ entries, G.IsFinal e.var
  pending : ∀ e ∈ entries, (e.var ∈ due ↔ since e.var = none)
  count : ∀ e ∈ entries, e.created = true ∧ Entry.Counted e (since e.var)
  gone : ∀ e ∈ left, e.created = true → e.Settled ∧ G.IsFinal e.var ∧ ∀ e' ∈ entries, e'.var ≠ e.var

/-- What a step does to what is due. -/
structure Turns (σ : Session) (acts : List Activation) (entries left : List Entry)
    (since since' : Since) (due' : Due) (height' : Nat) : Prop where
  pending : ∀ e ∈ entries, (e.var ∈ due' ↔ since' e.var = none)
  outside : ∀ e ∈ entries, height' ≤ e.height → e.var ∉ due'
  called : ∀ e ∈ entries, σ.called? = some e.var → since e.var = none ∧ since' e.var ≠ none
  invoked : ∀ e ∈ entries, since e.var = none → since' e.var ≠ none → σ.called? = some e.var
  resumed : ∀ inner e outer, entries = inner ++ e :: outer → since e.var ≠ none →
    since' e.var = none → σ.escapes acts e outer = true
  gone : ∀ e ∈ left, e.created = true → σ.called? ≠ some e.var

section Books

variable {G G' : Tags} {σ : Session} {acts : List Activation} {entries left : List Entry}
  {since since' : Since} {due due' : Due} {height height' : Nat} {e : Entry}

section

variable (h : Books G entries left since due height)

include h

theorem Books.nil (since' : Since) (due' : Due) (height' : Nat) :
  Books G [] left since' due' height' where
  order := .nil
  nested := .nil
  heights := forall_mem_nil _
  finals := forall_mem_nil _
  pending := forall_mem_nil _
  count := forall_mem_nil _
  gone e he hc := by
    obtain ⟨hsettled, hfinal, -⟩ := h.gone e he hc
    exact ⟨hsettled, hfinal, forall_mem_nil _⟩

theorem Turns.counted {inner outer : List Entry} (ht : Turns σ acts entries left since since' due' height')
    (hentries : entries = inner ++ e :: outer) :
  Entry.Counted (σ.note acts e outer) (since' e.var)
  := by
  have he : e ∈ entries := by
    rw [hentries]
    simp
  have hcount := (h.count e he).2
  have hcalled := ht.called e he
  have hinvoked := ht.invoked e he
  have hresumed := ht.resumed inner e outer hentries
  simp only [Entry.Counted, Session.note, Session.countCall, Entry.Settled] at hcount ⊢
  cases hold : since e.var with
  | none =>
    rw [hold] at hcount hinvoked hcalled
    cases hnew : since' e.var with
    | none =>
      have hnot : σ.called? ≠ some e.var := fun hc => (hcalled hc).2 hnew
      simp only [if_neg hnot]
      split <;> omega
    | some =>
      have hyes := hinvoked rfl (by simp [hnew])
      simp only [if_pos hyes]
      split <;> omega
  | some =>
    rw [hold] at hcount hresumed hcalled
    have hnot : σ.called? ≠ some e.var := fun hc => by cases (hcalled hc).1
    simp only [if_neg hnot]
    cases hnew : since' e.var with
    | none =>
      simp only [if_pos (hresumed (by simp) hnew)]
      omega
    | some =>
      simp only
      split <;> omega

theorem Books.note (ht : Turns σ acts entries left since since' due' height') (hG : G ≤ G') :
  Books G' ((σ.noteAll acts entries).filter (·.height < height'))
    ((σ.noteAll acts entries).filter (height' ≤ ·.height) ++ left.map σ.countCall) since' due' height' where
  order := by
    have hsub := (filter_sublist (p := fun e => e.height < height') (l := σ.noteAll acts entries)).map (·.var)
    rw [Session.map_noteAll (·.var) (fun _ _ => rfl)] at hsub
    exact h.order.sublist hsub
  nested := by
    have hsub := (filter_sublist (p := fun e => e.height < height') (l := σ.noteAll acts entries)).map (·.height)
    rw [Session.map_noteAll (·.height) (fun _ _ => rfl)] at hsub
    exact h.nested.sublist hsub
  heights e he := of_decide_eq_true (mem_filter.mp he).2
  finals e' he' := by
    obtain ⟨_, e, _, rfl, rfl⟩ := Session.mem_noteAll (mem_of_mem_filter he')
    exact (h.finals e (by simp)).mono hG
  pending e' he' := by
    obtain ⟨_, e, _, rfl, rfl⟩ := Session.mem_noteAll (mem_of_mem_filter he')
    exact ht.pending e (by simp)
  count e' he' := by
    obtain ⟨_, e, _, hentries, rfl⟩ := Session.mem_noteAll (mem_of_mem_filter he')
    have he : e ∈ entries := by
      rw [hentries]
      simp
    exact ⟨by simp [Session.note, (h.count e he).1], ht.counted h hentries⟩
  gone e' he' hc := by
    rcases mem_append.mp he' with he' | he'
    · -- an entry that is left by the step is not due
      obtain ⟨he', hheight⟩ := mem_filter.mp he'
      obtain ⟨_, e, _, hentries, rfl⟩ := Session.mem_noteAll he'
      have he : e ∈ entries := by
        rw [hentries]
        simp
      have hcounted := ht.counted h hentries
      have hnone : since' e.var ≠ none :=
        fun hnone => ht.outside e he (of_decide_eq_true hheight) ((ht.pending e he).mpr hnone)
      obtain ⟨m, hm⟩ := Option.ne_none_iff_exists'.mp hnone
      rw [hm] at hcounted
      refine ⟨hcounted, (h.finals e he).mono hG, ?_⟩
      intro _ he'' heq
      obtain ⟨he'', hlow⟩ := mem_filter.mp he''
      obtain ⟨_, e₁, _, hentries', rfl⟩ := Session.mem_noteAll he''
      have he₁ : e₁ ∈ entries := by
        rw [hentries']
        simp
      have hsame : e₁ = e := by
        have hnodup : (entries.map (·.var)).Nodup := h.order.imp Nat.ne_of_gt
        exact inj_on_of_nodup_map hnodup he₁ he heq
      subst hsame
      have hlow : e₁.height < height' := of_decide_eq_true hlow
      exact absurd (of_decide_eq_true hheight) (Nat.not_le.mpr hlow)
    · obtain ⟨e, he, rfl⟩ := mem_map.mp he'
      obtain ⟨hsettled, hfinal, hapart⟩ := h.gone e he hc
      have hnot := ht.gone e he hc
      refine ⟨?_, hfinal.mono hG, ?_⟩
      · rw [Session.countCall, if_neg hnot]
        exact hsettled
      · intro _ he'' heq
        obtain ⟨_, e₁, _, rfl, rfl⟩ := Session.mem_noteAll (mem_of_mem_filter he'')
        exact hapart e₁ (by simp) heq

theorem Books.turns (hsince : ∀ v, since' v = none ↔ since v = none) (hcalled : ∀ v, σ.called? = some v → ¬ G.IsFinal v)
    (houtside : ∀ e ∈ entries, height' ≤ e.height → e.var ∉ due) :
  Turns σ acts entries left since since' due height' where
  pending e he := (h.pending e he).trans (hsince e.var).symm
  outside := houtside
  called e he hc := absurd (h.finals e he) (hcalled e.var hc)
  invoked e _ hold hnew := absurd ((hsince e.var).mpr hold) hnew
  resumed _ e _ _ hold hnew := absurd ((hsince e.var).mp hnew) hold
  gone e he hc hcall := hcalled e.var hcall (h.gone e he hc).2.1

end

end Books

end Control

end ActorLang
