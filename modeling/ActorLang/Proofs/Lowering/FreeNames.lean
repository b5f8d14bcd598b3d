import ActorLang.Evaluation
import ActorLang.Proofs.Control.Programs
import Mathlib

/-!
# The free names of a program

What lowering declares on its own is bound in the statement of a program, and so is all that the
source declares.  A `func`, `proc` or `actor` with a name declares the name if it is one of the
sentences of a sequence.  Elsewhere it takes the name from around it.
-/

namespace ActorLang

open Kernel (Ident programResult)
open Lowering (tempName)
open Control (targetNames)

/-- The names that a program uses outside of the scope of their declarations. -/
def Program.free (p : Program) : List Ident := without (freeList p.body) (declaredNames p.body)

namespace Program

/-- The statement of a program uses no name but the target and the free names of the program. -/
theorem free_of_lower {source : String} {p : Program} {target : Target} {s : Kernel.Stmt}
    (hp : Program.ofSource source = .ok p) (htarget : ∀ t ∈ targetNames target, ∀ k, t ≠ tempName k)
    (h : p.lower target = .ok s) :
  ∀ x ∈ s.free, x ∈ targetNames target ∨ x ∈ p.free ∧ Written x
  := by
  intro x hx
  obtain ⟨⟨_, c⟩, hrun, hs⟩ := Control.except_bind_eq_ok h
  cases hs
  have hdelivers := Control.delivers_program (Control.proper_of_ofSource hp) target
  exact Control.mem_of_delivers hdelivers htarget hrun x (List.mem_eraseDups.mp hx)

/-- Declarations of all kinds, around uses of three names that none of them declares. -/
def declarations : String :=
  "func f (a) in case a of \x7b'k': b, ~out: c\x7d then b + c else begin var d = e d end end end\n" ++
  "for i in list do f(i) end\nf(0)"

-- the text is longer than the default depth allows for
set_option maxRecDepth 8000 in
theorem free_of_lower_declarations :
  ∃ p s, Program.ofSource declarations = .ok p ∧ p.lower (.ident programResult) = .ok s ∧
    p.free = ["out", "e", "list"] ∧ s.free = ["out", "e", "list", programResult] ∧
    ∀ x ∈ s.free, x ∈ targetNames (.ident programResult) ∨ x ∈ p.free ∧ Written x
  := by
  have hfree : ((Program.ofSource declarations).toOption.bind fun p =>
      (p.lower (.ident programResult)).toOption.map fun s => (p.free, s.free)) =
      some (["out", "e", "list"], ["out", "e", "list", programResult]) := by
    cbv
  cases hp : Program.ofSource declarations with
  | error => simp [hp, Except.toOption] at hfree
  | ok p =>
    cases hs : p.lower (.ident programResult) with
    | error => simp [hp, hs, Except.toOption] at hfree
    | ok s =>
      simp only [hp, hs, Except.toOption, Option.bind_some, Option.map_some, Option.some.injEq, Prod.mk.injEq] at hfree
      exact ⟨p, s, rfl, hs, hfree.1, hfree.2, free_of_lower hp Control.target_programResult hs⟩

/-- A named function as the value of a `var` does not declare its name, which is then free. -/
theorem free_namedValue :
  (compile "var g = func f () in 1 end\ng()").toOption.map (·.free) = some ["f", programResult] ∧
  (compile "var g = func f () in 1 end\ng()").toOption.bind (evaluate 100 · 0) =
    some { status := .halted,
           value := "'error'#\x7b'message': 'identifier \\'f\\' is not declared', 'name': 'IdentNotFoundError'\x7d",
           error := some "IdentNotFoundError" }
  := by
  constructor <;> cbv

end Program

end ActorLang
