import ActorLang.Machine.Step
import ActorLang.Proofs.Machine.Agreement
import ActorLang.Proofs.Store.Ground

/-!
# Selecting along a path

What a path of features leads to is invoked: a procedure is applied, an actor gets a message, and a
configurator makes a configuration.  Selecting step by step, into a new variable each time, invokes
the same, or ends with the same fault, or waits for the same variable.
-/

namespace ActorLang

open Kernel (Ident Operand operandIdents)
open List

/-- What happens at the end of a path. -/
inductive Invoked where
  | apply (proc : Datum)
  | send (actor : ActorId) (method : Feature)
  | configure (cfgtr : ProcId)

namespace Store

variable {s t : Store} {v w : Value} {d : Datum} {method : Feature}

def datumOf (s : Store) (v : Value) : Except Interrupt Datum :=
  match s.resolve v with
  | .var x => .error (.suspend x)
  | .datum d => .ok d

def select (s : Store) (g : Feature) : Datum → Except Interrupt Value
  | .record id => match (s.record id).get? g with
    | some field => .ok field.toValue
    | none => .error (.fault (.featureNotFound g (s.render (.datum (.record id)))))
  | d => .error (.fault (.selectType g d.typeName))

/-- What a method of a datum is. -/
def invocation (s : Store) (method : Feature) : Datum → Except Interrupt Invoked
  | .record id => do return .apply (← s.datumOf (← s.select method (.record id)))
  | .scalar (.actor actor) => .ok (.send actor method)
  | .scalar (.actorCfgtr cfgtr) =>
    if method = .str "cfg" then .ok (.configure cfgtr)
    else .error (.fault (.applyType method (Datum.scalar (.actorCfgtr cfgtr)).typeName))
  | d => .error (.fault (.applyType method d.typeName))

/-- What a method is at the end of a path from a datum. -/
def locate (s : Store) (method : Feature) : List Feature → Datum → Except Interrupt Invoked
  | [], d => s.invocation method d
  | g :: path, d => s.select g d >>= s.datumOf >>= s.locate method path

theorem WellFormed.select_within {g : Feature} (hs : s.WellFormed) (h : s.select g d = .ok v) :
  v.Within s
  := by
  cases d with
  | scalar a => cases h
  | record id =>
    rw [select] at h
    split at h <;> cases h
    next field hfield => exact hs.fields id _ (Record.mem_values_of_get? hfield)

theorem GrownTo.renderIn_eq (h : s.GrownTo t) (hs : s.WellFormed) (path : List RecordId)
    (hv : t.resolve w = s.resolve v) :
  t.renderIn path w = s.renderIn path v
  := by
  fun_induction renderIn s path v generalizing w with
  | case1 path v x hx => rw [renderIn, hv, hx]
  | case2 path v a ha => rw [renderIn, hv, ha]
  | case3 path v id hid hpath =>
    rename_i ih
    rw [renderIn, hv, hid]
    dsimp only
    rw [dif_pos (h.records ▸ hpath), h.record_eq]
    congr 1
    apply map_congr_left
    intro field hfield
    exact ih field.2 (h.resolve _ (hs.fields id _ (mem_map_of_mem hfield)))
  | case4 path v id hid hpath =>
    rw [renderIn, hv, hid]
    dsimp only
    rw [dif_neg (h.records ▸ hpath)]

theorem GrownTo.select_eq (h : s.GrownTo t) (hs : s.WellFormed) (g : Feature) (d : Datum) :
  t.select g d = s.select g d
  := by
  cases d with
  | scalar a => rfl
  | record id =>
    have hrender : t.render (.datum (.record id)) = s.render (.datum (.record id)) := h.renderIn_eq hs [] rfl
    rw [select, select, h.record_eq, hrender]

theorem datumOf_congr (h : t.resolve w = s.resolve v) :
  t.datumOf w = s.datumOf v
  := by
  rw [datumOf, datumOf, h]

theorem GrownTo.locate_eq (h : s.GrownTo t) (hs : s.WellFormed) (method : Feature) (path : List Feature) (d : Datum) :
  t.locate method path d = s.locate method path d
  := by
  have hfield (g : Feature) (d : Datum) : t.select g d >>= t.datumOf = s.select g d >>= s.datumOf := by
    rw [h.select_eq hs]
    cases hselect : s.select g d with
    | error e => rfl
    | ok v => exact datumOf_congr (h.resolve v (hs.select_within hselect))
  induction path generalizing d with
  | cons g path ih =>
    rw [locate, locate, hfield, funext ih]
  | nil =>
    cases d with
    | scalar a => cases a <;> rfl
    | record id =>
      simp only [locate, invocation, ← bind_assoc, hfield]

/-- A new variable is unified with a value. -/
theorem WellFormed.unify_newVar (hs : s.WellFormed) (hv : v.Within s) :
  ∃ slot, s.newVar.2.unify (.var s.newVar.1) v = (.ok (), (s.newSlot slot).2) ∧ s.GrownTo (s.newSlot slot).2 ∧
    (s.newSlot slot).2.resolve (.var s.newVar.1) = s.resolve v
  := by
  have hgrown : s.GrownTo s.newVar.2 := hs.newSlot (by simp) (by simp)
  have hself (slot : Slot) : (s.newSlot slot).2.slots[s.newVar.1]? = some slot := by
    simp [newVar, Store.newSlot]
  have hset (slot : Slot) : s.newVar.2.setSlot s.newVar.1 slot = (s.newSlot slot).2 := by
    simp [newVar, Store.newSlot, setSlot, Array.setIfInBounds, Array.set_push]
  have hwithin := hs.resolve_within hv
  have hnew : s.newVar.2.resolve (.var s.newVar.1) = .var s.newVar.1 := resolve_of_unbound (hself .unbound)
  rw [unify, unifyAll, hnew, hgrown.resolve v hv]
  cases hresolve : s.resolve v with
  | datum d =>
    rw [hresolve] at hwithin
    refine ⟨.bound d, by rw [← hset]; exact unifyAll.eq_1 _ _, hs.newSlot (by simp) ?_, resolve_of_bound (hself _)⟩
    rintro _ ⟨⟩
    exact hwithin
  | var x =>
    rw [hresolve] at hwithin
    have hx := hs.unbound_of_resolve hv hresolve
    refine ⟨.link x, ?_, hs.newSlot ?_ (by simp), ?_⟩
    · dsimp only
      rw [if_neg (show s.newVar.1 ≠ x from Nat.ne_of_gt hwithin), ← hset]
      exact unifyAll.eq_1 _ _
    · rintro _ ⟨⟩
      exact hwithin
    · have hx' := ContinuedBy.getElem?_eq (ContinuedBy.newSlot s (.link x)).slots hx
      rw [(Leads.link (hself _) (.stop hx' (by simp))).resolve_eq, resolve_of_unbound hx']

end Store

namespace Exec

variable {s : Store} {env env' : Env} {σ : Session} {record : Operand} {args : List Operand} {v : Value}
  {method : Feature} {m : String} {path : List Feature} {temp : Ident} {steps : List (Literal × Ident)}

/-! ### Invocations -/

/-- Invokes what has been found. -/
def invoke (env : Env) (args : List Operand) : Except Interrupt Invoked → Exec Next
  | .error e => throw e
  | .ok (.apply proc) => applyOperands env proc args
  | .ok (.send actor method) => do
    send actor method (← operandVars env (withoutResult args (if method = .str "tell" then 1 else 2)))
    return .rest
  | .ok (.configure cfgtr) => do
    configure cfgtr (← operandVars env args)
    return .rest

theorem run_determined (v : Value) (σ : Session) :
  (determined v).run σ = (σ.store.datumOf v, σ)
  := by
  rw [determined, (returns_withStore _ σ).run_bind, Store.datumOf]
  cases σ.store.resolve v with
  | var | datum => rfl

theorem run_select (d : Datum) (g : Feature) (σ : Session) :
  (select d g).run σ = (σ.store.select g d, σ)
  := by
  cases d with
  | scalar a => rfl
  | record id =>
    rw [select, (returns_withStore _ σ).run_bind, Store.select]
    cases (σ.store.record id).get? g with
    | none | some => rfl

theorem run_bind_invoke {α : Type} {x : Exec α} {r : Except Interrupt α} {f : α → Exec Next}
    {k : α → Except Interrupt Invoked} (h : x.run σ = (r, σ))
    (hf : ∀ a, (f a).run σ = (invoke env args (k a)).run σ) :
  (x >>= f).run σ = (invoke env args (r >>= k)).run σ
  := by
  cases r with
  | error e => exact run_bind_error h
  | ok a => exact (Returns.run_bind h f).trans (hf a)

theorem run_selectPath_bind {f : Datum → Exec Next} (d : Datum) (path : List Feature)
    (hf : ∀ d, (f d).run σ = (invoke env args (σ.store.invocation method d)).run σ) :
  (selectPath d path >>= f).run σ = (invoke env args (σ.store.locate method path d)).run σ
  := by
  induction path generalizing d with
  | nil => exact hf d
  | cons g path ih =>
    rw [selectPath, bind_assoc, Store.locate, bind_assoc]
    refine run_bind_invoke (run_select d g σ) fun field => ?_
    rw [bind_assoc]
    exact run_bind_invoke (run_determined field σ) ih

theorem returns_feature {step : Literal} {g : Feature} (env : Env) (h : Feature.ofLiteral? step = some g) :
  feature env (.lit step) = pure g
  := by
  have hdatum : determinedOperand env (.lit step) = pure (.scalar (.lit step)) := rfl
  rw [feature, hdatum, pure_bind, Datum.feature?, Scalar.feature?, h]

/-- The path of features that literals spell. -/
def Spelled (steps : List (Literal × Ident)) (path : List Feature) : Prop :=
  Forall₂ (fun step g => Feature.ofLiteral? step.1 = some g) steps path

theorem run_selectApply (hv : operand env record = pure v) (h : Spelled steps path) :
  (selectApply env record (steps.map (.lit ·.1) ++ [.lit (.str m)]) args).run σ =
    (invoke env args (σ.store.datumOf v >>= σ.store.locate (.str m) path)).run σ
  := by
  have hfeatures : features env (steps.map (.lit ·.1) ++ [.lit (.str m)]) = pure (path ++ [.str m]) := by
    induction h with
    | nil => rfl
    | cons hf _ ih =>
      rw [map_cons, cons_append, features, returns_feature env hf, pure_bind, ih, pure_bind, cons_append]
  simp only [selectApply, determinedOperand, hv, hfeatures, pure_bind, getLast?_concat, dropLast_concat]
  refine run_bind_invoke (run_determined v σ) fun d => run_selectPath_bind d path fun d => ?_
  rcases d with a | id
  · cases a with
    | lit | token | proc | actorCfg | actor | cell => rfl
    | actorCfgtr cfgtr =>
      by_cases hm : m = "cfg"
      · simp [Store.invocation, invoke, hm]
      · simp only [Store.invocation, Feature.str.injEq, hm, ne_eq, not_false_eq_true, if_true, if_false]
        rfl
  · refine run_bind_invoke (run_select _ _ σ) fun field => ?_
    exact run_bind_invoke (run_determined field σ) fun _ => rfl

/-! ### Step by step -/

/-- Selects step by step into new variables, and then invokes a method. -/
def selectStepwise (method : String) (args : List Operand) (env : Env) (record : Operand) :
    List (Literal × Ident) → Exec Next
  | [] => stmt env (.selectApply record [.lit (.str method)] args)
  | (step, temp) :: rest => do
    let env := env.extend [(temp, ← onStore (·.newVar))]
    let _ ← stmt env (.select record (.lit step) temp)
    selectStepwise method args env (.ident temp) rest

theorem operandVars_congr (h : ∀ x ∈ operandIdents args, env'.lookup x = env.lookup x) :
  operandVars env' args = operandVars env args
  := by
  induction args with
  | nil => rfl
  | cons arg args ih =>
    have hrest : operandVars env' args = operandVars env args := ih fun x hx => h x (mem_append_right _ hx)
    cases arg with
    | lit l => rw [operandVars, operandVars, hrest]
    | ident x => rw [operandVars, operandVars, hrest, lookup, lookup, h x (by simp [operandIdents, Operand.idents])]

theorem invoke_congr (h : ∀ x ∈ operandIdents args, env'.lookup x = env.lookup x)
    (found : Except Interrupt Invoked) :
  invoke env' args found = invoke env args found
  := by
  have hless (takes : Nat) :
      operandVars env' (withoutResult args takes) = operandVars env (withoutResult args takes) := by
    refine operandVars_congr fun x hx => h x ?_
    rw [withoutResult] at hx
    split at hx
    · obtain ⟨arg, harg, hx⟩ := mem_flatMap.mp hx
      exact mem_flatMap.mpr ⟨arg, dropLast_subset _ harg, hx⟩
    · exact hx
  rcases found with e | i
  · rfl
  · cases i with
    | apply proc => simp only [invoke, applyOperands, pure_bind, hless, operandVars_congr h]
    | send actor method => simp only [invoke, hless]
    | configure cfgtr => rw [invoke, invoke, operandVars_congr h]

theorem lookup_extend_other {x : VarId} {y : Ident} (h : y ≠ temp) :
  (env.extend [(temp, x)]).lookup y = env.lookup y
  := Env.lookup_extend_of_not_mem (by simpa using h)

theorem run_selectStepwise (hs : s.WellFormed) (hv : operand env record = pure v) (hwithin : v.Within s)
    (hpath : Spelled steps path) (hnodup : (steps.map (·.2)).Nodup)
    (hfresh : ∀ x ∈ steps.map (·.2), x ∉ record.idents ++ operandIdents args) (σ : Session) :
  ∃ t, s.AddsVars t ∧ (selectStepwise m args env record steps).run (σ.withStore s) =
    (invoke env args (s.datumOf v >>= s.locate (.str m) path)).run (σ.withStore t)
  := by
  induction hpath generalizing s env record v with
  | nil => exact ⟨s, .refl s, run_selectApply hv .nil⟩
  | @cons step g rest path hg hrest ih =>
    obtain ⟨l, temp⟩ := step
    obtain ⟨hnew, hnodup⟩ := nodup_cons.mp hnodup
    obtain ⟨htemp, hfresh⟩ := forall_mem_cons.mp hfresh
    obtain ⟨env', henv'⟩ : ∃ env', env' = env.extend [(temp, s.newVar.1)] := ⟨_, rfl⟩
    have hother {x : Ident} (hx : x ∈ record.idents ++ operandIdents args) : env'.lookup x = env.lookup x := by
      rw [henv']
      exact lookup_extend_other fun h => htemp (h ▸ hx)
    have hlookup : env'.lookup temp = some s.newVar.1 := by
      simp [henv', Env.extend]
    have hgrown : s.GrownTo s.newVar.2 := hs.newSlot (by simp) (by simp)
    have hrun : (selectStepwise m args env record ((l, temp) :: rest)).run (σ.withStore s) = (do
        let field ← determined v >>= (select · g)
        bind s.newVar.1 field
        selectStepwise m args env' (.ident temp) rest).run (σ.withStore s.newVar.2) := by
      have hlookup' : lookup env' temp = pure s.newVar.1 := by rw [lookup, hlookup]
      rw [selectStepwise, (returns_onStore _ _).run_bind]
      simp only [Session.withStore_store, Session.withStore_withStore, ← henv', stmt, determinedOperand,
        returns_feature env' hg, operand_congr fun x hx => hother (mem_append_left _ hx), hv, hlookup', bind_assoc,
        pure_bind]
    have hread : (determined v >>= (select · g)).run (σ.withStore s.newVar.2) =
        (s.datumOf v >>= s.select g, σ.withStore s.newVar.2) := by
      have hdatum := run_determined v (σ.withStore s.newVar.2)
      rw [Session.withStore_store, Store.datumOf_congr (hgrown.resolve v hwithin)] at hdatum
      cases hd : s.datumOf v with
      | error e => exact run_bind_error (hd ▸ hdatum)
      | ok d =>
        rw [Returns.run_bind (hd ▸ hdatum), run_select, Session.withStore_store, hgrown.select_eq hs]
        rfl
    have hlocate : s.datumOf v >>= s.locate (.str m) (g :: path) =
        (s.datumOf v >>= s.select g) >>= fun field => s.datumOf field >>= s.locate (.str m) path := by
      simp only [bind_assoc, Store.locate]
    rw [hrun, hlocate]
    rcases hfound : s.datumOf v >>= s.select g with e | field <;> rw [hfound] at hread
    · exact ⟨s.newVar.2, .newSlot _ _, run_bind_error hread⟩
    · have hfield : field.Within s := by
        rcases hd : s.datumOf v with e | d <;> rw [hd] at hfound
        · cases hfound
        · exact hs.select_within hfound
      obtain ⟨slot, hunify, hslot, hresolve⟩ := hs.unify_newVar hfield
      have hbind : (bind s.newVar.1 field).Returns (σ.withStore s.newVar.2) () (σ.withStore (s.newSlot slot).2) := by
        apply (returns_onStore _ _).bind
        rw [Session.withStore_store, hunify]
        apply returns_pure
      have hfresh : ∀ x ∈ rest.map (·.2), x ∉ (Operand.ident temp).idents ++ operandIdents args := by
        intro x hx hmem
        rcases mem_append.mp hmem with hmem | hmem
        · cases mem_singleton.mp hmem
          exact hnew hx
        · exact hfresh x hx (mem_append_right _ hmem)
      have hbelow : (Value.var s.newVar.1).Within (s.newSlot slot).2 := by
        simp [Value.Within, Store.newSlot, Store.newVar]
      obtain ⟨t, hadds, hend⟩ := ih hslot.wellFormed (operand_eq hlookup) hbelow hnodup hfresh
      refine ⟨t, .trans (.newSlot _ _) hadds, ?_⟩
      rw [Returns.run_bind hread, hbind.run_bind, hend, invoke_congr fun x hx => hother (mem_append_right _ hx),
        Store.datumOf_congr hresolve, funext (hslot.locate_eq hs (.str m) path)]
      rfl

theorem run_selectStepwise_fault {e : Fault} (he : operand env record = fault e)
    (hfresh : ∀ x ∈ steps.map (·.2), x ∉ record.idents) (σ : Session) :
  ∃ τ, σ.AddsVars τ ∧ (selectStepwise m args env record steps).run σ = (.error (.fault e), τ)
  := by
  cases steps with
  | nil =>
    refine ⟨σ, .refl σ, ?_⟩
    rw [selectStepwise, stmt, selectApply, determinedOperand, he]
    rfl
  | cons step rest =>
    refine ⟨σ.withStore σ.store.newVar.2, ⟨.newSlot _ _, rfl⟩, ?_⟩
    rw [selectStepwise, (returns_onStore _ σ).run_bind]
    dsimp only
    have hsame (y : VarId) : operand (env.extend [(step.2, y)]) record = operand env record :=
      operand_congr fun x hx => lookup_extend_other fun h => hfresh step.2 (.head _) (h ▸ hx)
    rw [stmt, determinedOperand, hsame, he]
    rfl

/-- Selecting along a path at once and step by step come to the same. -/
theorem selectApply_eq_stepwise (hs : σ.store.WellFormed)
    (henv : ∀ b ∈ env, b.2 < σ.store.slots.size)
    (hsteps : ∀ step ∈ steps, (Feature.ofLiteral? step.1).isSome) (hnodup : (steps.map (·.2)).Nodup)
    (hfresh : ∀ x ∈ steps.map (·.2), x ∉ record.idents ++ operandIdents args) :
  ∃ found τ, σ.AddsVars τ ∧
    (stmt env (.selectApply record (steps.map (.lit ·.1) ++ [.lit (.str m)]) args)).run σ =
      (invoke env args found).run σ ∧
    (selectStepwise m args env record steps).run σ = (invoke env args found).run τ
  := by
  obtain ⟨path, hpath⟩ : ∃ path, Spelled steps path := by
    refine ⟨steps.map fun step => (Feature.ofLiteral? step.1).getD default, ?_⟩
    rw [Spelled, forall₂_map_right_iff, forall₂_same]
    intro step hstep
    obtain ⟨g, hg⟩ := Option.isSome_iff_exists.mp (hsteps step hstep)
    rw [hg, Option.getD_some]
  have hoperand : (∃ v, operand env record = pure v ∧ v.Within σ.store) ∨
      ∃ e, operand env record = fault e := by
    cases record with
    | lit l => exact .inl ⟨_, rfl, trivial⟩
    | ident x =>
      cases hlookup : env.lookup x with
      | some y => exact .inl ⟨.var y, operand_eq hlookup, henv _ (Env.mem_of_lookup hlookup)⟩
      | none => exact .inr ⟨.identNotFound x, by rw [operand, leaf, lookup, hlookup]; rfl⟩
  rcases hoperand with ⟨v, hv, hwithin⟩ | ⟨e, he⟩
  · obtain ⟨t, hadds, hrun⟩ := run_selectStepwise hs hv hwithin hpath hnodup hfresh σ
    exact ⟨_, σ.withStore t, ⟨hadds, rfl⟩, run_selectApply hv hpath, hrun⟩
  · obtain ⟨τ, hadds, hrun⟩ := run_selectStepwise_fault he (fun x hx hmem => hfresh x hx (mem_append_left _ hmem)) σ
    refine ⟨.error (.fault e), τ, hadds, ?_, hrun⟩
    rw [stmt, selectApply, determinedOperand, he]
    rfl

/-- A procedure in a record in a record. -/
def nested : Session where
  machine := { store := {
    slots := #[.bound (.record 0), .bound (.record 1), .bound (.scalar (.proc (.builtin 0 .recSize)))]
    records := #[⟨none, [(.str "a", .var 1)]⟩, ⟨none, [(.str "m", .var 2)]⟩] } }
  world := default

theorem selectApply_eq_stepwise_nested :
  ∃ found τ, nested.AddsVars τ ∧
    (stmt [("r", 0)] (.selectApply (.ident "r") [.lit (.str "a"), .lit (.str "m")] [.ident "r"])).run nested =
      (invoke [("r", 0)] [.ident "r"] found).run nested ∧
    (selectStepwise "m" [.ident "r"] [("r", 0)] (.ident "r") [(.str "a", "t")]).run nested =
      (invoke [("r", 0)] [.ident "r"] found).run τ
  := by
  refine @selectApply_eq_stepwise _ _ _ _ _ [(.str "a", "t")] ?_ ?_ ?_ ?_ ?_
  · exact .of_no_link (by decide) (by decide)
  · simp [nested]
  · simp [Feature.ofLiteral?]
  · simp
  · simp [Operand.idents, operandIdents]

end Exec

end ActorLang
