import ActorLang.Compile
import ActorLang.Evaluation
import ActorLang.Proofs.Lowering.Names
import ActorLang.Proofs.Machine.Statements
import Mathlib

/-!
# Numbers of arguments

A function has a parameter more than it declares, for its result, and a call whose value is used has
an argument more, for where the value goes.  The result of the program is dropped from the operands
if this makes their number right, and then another argument takes its place.
-/

namespace ActorLang

open Kernel (Ident Operand Stmt operandIdents programResult resultIdent)
open List
open Lowering

/-! ### Calls and functions as they are written -/

/-- A call with these arguments, of a procedure or of one that is found in a record. -/
inductive Form.Calls : Form → List Expr → Prop where
  | apply (proc : Expr) (args : List Expr) : Calls (.apply proc args) args
  | selectApply (record : Expr) (name : String) (args : List Expr) :
      Calls (.selectApply record name args) args

namespace Kernel.Stmt

/-- The operands that a statement applies something to. -/
def applied? : Stmt → Option (List Operand)
  | apply _ args => some args
  | selectApply _ _ args => some args
  | _ => none

/-- What a statement ends with. -/
def last : Stmt → Stmt
  | scope _ body => last body
  | seq stmts => stmts.getLast?.getD .skip
  | s => s

/-- The statement comes to creating the procedure. -/
inductive Creates (params : List Ident) (body : Stmt) : Stmt → Prop where
  | here (target : Ident) : Creates params body (.createProc params body target)
  | element {stmts s} (hs : s ∈ stmts) (h : Creates params body s) :
      Creates params body (.seq stmts)
  | inner {names s} (h : Creates params body s) : Creates params body (.scope names s)

end Kernel.Stmt

/-- A closure that is made by a function with this many declared parameters. -/
def Closure.OfFunc (cl : Closure) (count : Nat) : Prop :=
  ∃ span name params body target c c' s, params.length = count ∧
    (ofForm span (.func name params body)).into target c = .ok (s, c') ∧ Stmt.Creates cl.params cl.body s

namespace Lowering

variable {c c' : Context} {s call b : Stmt} {args : List Operand} {span : Span}

theorem length_operands {ps : List Phrase} {setup : Setup} (h : operands ps c = .ok ((args, setup), c')) :
  args.length = ps.length
  := by
  induction ps generalizing c args setup with
  | nil =>
    obtain ⟨⟨rfl, rfl⟩, rfl⟩ := pure_eq_ok_iff.mp h
    rfl
  | cons p _ ih =>
    obtain ⟨⟨_, _⟩, d, -, h⟩ := bind_eq_ok_iff.mp h
    obtain ⟨⟨_, _⟩, _, hrest, h⟩ := bind_eq_ok_iff.mp h
    obtain ⟨⟨rfl, rfl⟩, rfl⟩ := pure_eq_ok_iff.mp h
    rw [length_cons, length_cons, ih hrest]

theorem length_ofList (es : List Expr) :
  (ofList es).length = es.length
  := by
  induction es with
  | nil => rfl
  | cons e _ ih => rw [ofList, length_cons, length_cons, ih]

theorem last_finish (hcall : call.applied? = some args) (setup : Setup) :
  (setup.finish call).last = call
  := by
  have helements : call.elements = [call] := by
    cases call <;> first | rfl | cases hcall
  have hself : call.last = call := by
    cases call <;> first | rfl | cases hcall
  have hlist : (Stmt.ofList (setup.stmts ++ [call])).last = call := by
    rw [Stmt.ofList, flatMap_append, flatMap_singleton, helements]
    rcases setup.stmts.flatMap Stmt.elements with _ | ⟨s, _ | ⟨s', rest⟩⟩
    · exact hself
    · rfl
    · have hrest : (s :: s' :: rest ++ [call]).getLast? = some call := List.getLast?_concat
      exact congrArg (·.getD .skip) hrest
  rw [Setup.finish, Stmt.within]
  split
  · exact hlist
  · exact hlist

/-- What is lowered for a call ends with an application, to an operand for each argument and the target. -/
theorem applied_of_calls {form : Form} {args : List Expr} {t : Ident} (hcall : form.Calls args)
    (h : (ofForm span form).into (.ident t) c = .ok (s, c')) :
  ∃ operands, s.last.applied? = some (operands ++ [.ident t]) ∧ operands.length = args.length
  := by
  have hlast {setup : Setup} {call : Stmt} {operands : List Operand}
      (happlied : call.applied? = some (operands ++ [.ident t])) :
      (setup.finish call).last.applied? = some (operands ++ [.ident t]) := by
    rw [last_finish happlied]
    exact happlied
  cases hcall with
  | apply _ args | selectApply _ _ args =>
    obtain ⟨⟨_, _⟩, d, -, h⟩ := bind_eq_ok_iff.mp h
    obtain ⟨⟨operands, _⟩, _, hoperands, h⟩ := bind_eq_ok_iff.mp h
    obtain ⟨rfl, rfl⟩ := pure_eq_ok_iff.mp h
    exact ⟨operands, hlast rfl, (length_operands hoperands).trans (length_ofList args)⟩

/-- The procedure of a function has the declared parameters, and one for the result. -/
theorem params_of_creates {name : Option Ident} {params formals : List Ident} {body : List Expr} {target : Target}
    (h : (ofForm span (.func name params body)).into target c = .ok (s, c')) (hs : Stmt.Creates formals b s) :
  formals = params ++ [resultIdent]
  := by
  obtain ⟨⟨stmt, frame⟩, d, -, h⟩ := bind_eq_ok_iff.mp h
  have hcreate {x : Ident}
      (h : Stmt.Creates formals b (.createProc (params ++ [resultIdent]) (closeFunc stmt frame) x)) :
      formals = params ++ [resultIdent] := by
    cases h
    rfl
  cases name with
  | some =>
    obtain ⟨rfl, rfl⟩ := pure_eq_ok_iff.mp h
    cases target with
    | discard => exact hcreate hs
    | ident =>
      cases hs with | element hmem hs
      rcases mem_pair.mp hmem with rfl | rfl
      · exact hcreate hs
      · cases hs
  | none =>
    obtain ⟨⟨t, _⟩, _, ht, h⟩ := bind_eq_ok_iff.mp h
    obtain ⟨rfl, rfl⟩ := pure_eq_ok_iff.mp h
    cases target with
    | discard =>
      obtain ⟨⟨rfl, rfl⟩, rfl⟩ := pure_eq_ok_iff.mp ht
      cases hs with | inner hs
      exact hcreate hs
    | ident =>
      obtain ⟨⟨rfl, rfl⟩, rfl⟩ := pure_eq_ok_iff.mp ht
      exact hcreate hs

end Lowering

/-! ### Calls as they are executed -/

namespace Exec

variable {env : Env} {σ : Session}

/-- The statement applies this to its operands. -/
inductive Finds (env : Env) (σ : Session) : Stmt → Datum → Prop where
  | apply {proc d} (args : List Operand) (h : (determinedOperand env proc).Returns σ d σ) :
      Finds env σ (.apply proc args) d
  | selectApply {record path start d features method id field} (args : List Operand)
      (hstart : (determinedOperand env record).Returns σ start σ)
      (hpath : (Exec.features env path).Returns σ (features ++ [method]) σ)
      (hrecord : (selectPath start features).Returns σ (.record id) σ)
      (hfield : (select (.record id) method).Returns σ field σ)
      (h : (determined field).Returns σ d σ) : Finds env σ (.selectApply record path args) d

theorem Finds.run_stmt {s : Stmt} {d : Datum} {args : List Operand} (h : Finds env σ s d)
    (hs : s.applied? = some args) :
  (Exec.stmt env s).run σ = (applyOperands env d args).run σ
  := by
  cases h with
  | apply _ h =>
    cases hs
    exact h.run_bind _
  | @selectApply record path _ d _ _ id _ args hstart hpath hrecord hfield h =>
    cases hs
    have hfound : (Exec.stmt env (.selectApply record path args)).run σ = _ := hstart.run_bind _
    rw [hfound, hpath.run_bind, List.getLast?_concat, dropLast_concat]
    rw [hrecord.run_bind]
    rw [hfield.run_bind, h.run_bind]

theorem operandVars_cases (env : Env) (args : List Operand) (σ : Session) :
  (∃ vars τ, (operandVars env args).Returns σ vars τ ∧ vars.length = args.length) ∨
  ∃ x ∈ operandIdents args, env.lookup x = none ∧ ∃ τ,
    (operandVars env args).run σ = (.error (.fault (.identNotFound x)), τ)
  := by
  induction args generalizing σ with
  | nil => exact .inl ⟨[], σ, returns_pure _ _, rfl⟩
  | cons arg rest ih =>
    have hcons {v : VarId} {τ : Session} {x : Exec VarId} (hx : x.Returns σ v τ) :
        (∃ vars υ, (do let v ← x; return v :: (← operandVars env rest)).Returns σ vars υ ∧
          vars.length = (arg :: rest).length) ∨
        ∃ y ∈ operandIdents rest, env.lookup y = none ∧ ∃ υ,
          (do let v ← x; return v :: (← operandVars env rest)).run σ = (.error (.fault (.identNotFound y)), υ) := by
      rcases ih τ with ⟨vars, υ, hvars, hlength⟩ | ⟨y, hy, hnone, υ, hrun⟩
      · refine .inl ⟨v :: vars, υ, hx.bind (hvars.bind (returns_pure _ _)), ?_⟩
        rw [length_cons, length_cons, hlength]
      · exact .inr ⟨y, hy, hnone, υ, (hx.run_bind _).trans (run_bind_error hrun)⟩
    have hweaken {P : Ident → Prop} (h : ∃ y ∈ operandIdents rest, P y) :
        ∃ y ∈ operandIdents (arg :: rest), P y := by
      obtain ⟨y, hy, hP⟩ := h
      exact ⟨y, mem_flatMap.mpr ((mem_flatMap.mp hy).imp fun _ h => ⟨.tail _ h.1, h.2⟩), hP⟩
    cases arg with
    | lit l => exact (hcons (returns_onStore (·.newBound (.lit l)) σ)).imp id hweaken
    | ident name =>
      cases hlookup : env.lookup name with
      | some => exact (hcons (returns_lookup hlookup σ)).imp id hweaken
      | none =>
        refine .inr ⟨name, by simp [operandIdents, Operand.idents], hlookup, σ, run_bind_error ?_⟩
        rw [lookup, hlookup]
        rfl

theorem applyOperands_wrong_count (env : Env) (σ : Session) (id : ProcId) (args : List Operand)
    (hcount : (withoutResult args (σ.store.closure id).params.length).length ≠
      (σ.store.closure id).params.length) :
  ∃ f τ, (applyOperands env (.scalar (.proc (.closure id))) args).run σ = (.error (.fault f), τ) ∧ σ.AddsVars τ ∧
    (f = .arity (σ.store.closure id).params.length
        (withoutResult args (σ.store.closure id).params.length).length ∨
      ∃ x ∈ operandIdents args, env.lookup x = none ∧ f = .identNotFound x)
  := by
  generalize hkept : withoutResult args (σ.store.closure id).params.length = kept at hcount ⊢
  have happly : (applyOperands env (.scalar (.proc (.closure id))) args).run σ =
      (operandVars env kept >>= apply (.scalar (.proc (.closure id)))).run σ := by
    rw [← hkept]
    rfl
  have hadds := (staged_operandVars env kept).allows σ
  have hsub : operandIdents kept ⊆ operandIdents args := by
    rw [← hkept, withoutResult]
    split
    · intro x hx
      obtain ⟨arg, harg, hx⟩ := mem_flatMap.mp hx
      exact mem_flatMap.mpr ⟨arg, mem_of_mem_dropLast harg, hx⟩
    · exact Subset.refl _
  rw [happly]
  rcases operandVars_cases env kept σ with ⟨vars, τ, hvars, hlength⟩ | ⟨x, hx, hnone, τ, hrun⟩
  · rw [show (operandVars env kept).run σ = (.ok vars, τ) from hvars] at hadds
    have hclosure : arity τ.store (.closure id) = (σ.store.closure id).params.length := by
      have hprocs := congrArg Store.procs hadds.store.rest
      rw [arity, Store.closure, Store.closure, ← hprocs]
    refine ⟨_, τ, ?_, hadds, .inl rfl⟩
    rw [hvars.run_bind, apply, (returns_withStore _ τ).run_bind, hclosure, hlength, if_pos (Ne.symm hcount)]
    rfl
  · rw [hrun] at hadds
    exact ⟨_, τ, run_bind_error hrun, hadds, .inr ⟨x, hsub hx, hnone, rfl⟩⟩

end Exec

namespace Session

/-- A call whose value is used, with a number of arguments that the function does not have, faults: the function
expected another number of arguments, or one of those that are given is not there.  Nothing has changed before that
but that variables are added for literals, and the function is not entered.  This holds unless the value is the result
of the program and there is just one argument too many. -/
theorem wrong_count_faults {span : Span} {form : Form} {args : List Expr} {t : Ident} {c c' : Context} {s : Stmt}
    (hcall : form.Calls args) (hs : (ofForm span form).into (.ident t) c = .ok (s, c')) :
  ∃ operands, s.last.applied? = some (operands ++ [.ident t]) ∧ operands.length = args.length ∧
    ∀ (σ : Session) env rest id cl count, σ.stack = .stmt s.last env :: rest → ¬ σ.Limited →
      Exec.Finds env (σ.popped rest) s.last (.scalar (.proc (.closure id))) →
      σ.store.procs[id]? = some cl → cl.OfFunc count → args.length ≠ count →
      ¬ (t = programResult ∧ args.length = count + 1) →
      ∃ f τ, σ.step = raise τ f ∧ (σ.popped rest).AddsVars τ ∧
        (f = .arity (count + 1) (args.length + 1) ∨
          ∃ x ∈ operandIdents (operands ++ [.ident t]), env.lookup x = none ∧ f = .identNotFound x)
  := by
  obtain ⟨operands, happlied, hlength⟩ := applied_of_calls hcall hs
  refine ⟨operands, happlied, hlength, ?_⟩
  intro σ env rest id cl count hstack hlimit hfinds hid hcl _ hresult
  have hclosure : (σ.popped rest).store.closure id = cl := by
    have hid : (σ.popped rest).store.procs[id]? = some cl := hid
    rw [Store.closure, Array.getD_eq_getD_getElem?, hid]
    rfl
  have hkept : withoutResult (operands ++ [.ident t]) (count + 1) = operands ++ [.ident t] := by
    rw [withoutResult, if_neg]
    rw [length_append, length_singleton]
    rintro ⟨hlast, _⟩
    exact hresult ⟨by simpa using hlast, by omega⟩
  have hgot : (operands ++ [Operand.ident t]).length = args.length + 1 := by
    rw [length_append, length_singleton, hlength]
  have hwrong := Exec.applyOperands_wrong_count env (σ.popped rest) id (operands ++ [.ident t])
  obtain ⟨_, _, _, _, _, _, _, _, rfl, hs, hcreates⟩ := hcl
  rw [hclosure, params_of_creates hs hcreates, length_append, length_singleton, hkept, hgot] at hwrong
  obtain ⟨f, τ, hrun, hadds, hf⟩ := hwrong (by omega)
  have hexecutes : σ.Executes s.last env rest (.error (.fault f)) τ :=
    ⟨hstack, hlimit, (hfinds.run_stmt happlied).trans hrun⟩
  exact ⟨f, τ, hexecutes.step_error, hadds, hf⟩

/-- A function of one parameter is called with two arguments, and the value goes to a variable. -/
def excess : Stmt := ((compile "func f (x) in x end\nvar y = f(5, 5)\ny").toOption).getD .skip

def atExcess : Session :=
  (fun σ : Session => σ.step.2)^[3] ⟨((Machine.create 0 none).load excess).2, {}⟩

def excessEnv : Env := ("y", 8) :: ("f", 7) :: ("$result", 6) :: (Machine.create 0 none).root

/-- The function expects two arguments, its result included, and there are three. -/
theorem wrong_count_faults_excess :
  ∃ τ, atExcess.step = raise τ (.arity 2 3)
  := by
  have hs : (ofForm .unknown (.apply (.mk .unknown (.ident "f"))
      [.mk .unknown (.lit (.int32 5)), .mk .unknown (.lit (.int32 5))])).into (.ident "y") {} =
      .ok (.apply (.ident "f") [.lit (.int32 5), .lit (.int32 5), .ident "y"], {}) := rfl
  have hfunc : Closure.OfFunc ⟨["x", "$r"], .bind (.ident "x") "$r", []⟩ 1 :=
    ⟨.unknown, some "f", ["x"], [.mk .unknown (.ident "x")], .discard, {}, {}, _, rfl, rfl, .here _⟩
  have hstack : atExcess.stack =
      [.stmt (.apply (.ident "f") [.lit (.int32 5), .lit (.int32 5), .ident "y"]) excessEnv,
        .stmt (.bind (.ident "y") "$result") excessEnv] := by
    cbv
  have hresolve : atExcess.store.resolve (.var 7) = .datum (.scalar (.proc (.closure 0))) := by
    cbv
  have hid : atExcess.store.procs[0]? = some ⟨["x", "$r"], .bind (.ident "x") "$r", []⟩ := by
    cbv
  have hlimit : ¬ atExcess.Limited := by
    cbv
  have hfinds : Exec.Finds excessEnv (atExcess.popped [.stmt (.bind (.ident "y") "$result") excessEnv])
      (.apply (.ident "f") [.lit (.int32 5), .lit (.int32 5), .ident "y"]) (.scalar (.proc (.closure 0))) :=
    .apply _ ((Exec.returns_operand rfl _).bind (Exec.returns_determined hresolve))
  obtain ⟨_, happlied, -, h⟩ := wrong_count_faults (.apply _ _) hs
  obtain ⟨f, τ, hstep, -, rfl | ⟨x, hx, hnone, -⟩⟩ :=
    h atExcess excessEnv _ 0 _ 1 hstack hlimit hfinds hid hfunc (by decide) (by decide)
  · exact ⟨τ, hstep⟩
  · have hx : x ∈ ["y"] := by
      rwa [← Option.some.inj happlied] at hx
    cases mem_singleton.mp hx
    cases hnone

/-- A function of one parameter is called with two arguments, and the value is the result of the program.  The result is
dropped, the second argument takes its place, and the program ends without a value. -/
theorem result_masks_excess :
  (compile "func f (x) in x end\nf(5, 5)").toOption.bind (evaluate 100 · 0) =
    some { status := .done, value := "_" }
  := by
  cbv

end Session

end ActorLang
