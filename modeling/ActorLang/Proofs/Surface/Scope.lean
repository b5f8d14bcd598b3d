import ActorLang.Lowering.Program
import ActorLang.Proofs.Pattern.Flattening

/-!
# The names around an expression

An expression reads names from outside, and delivers its value at one or more places.  A place is
given by the names that are bound around it inside of the expression.
-/

namespace ActorLang

open Kernel (Ident)

/-- The names that are not bound. -/
def without (names bound : List Ident) : List Ident := names.filter (· ∉ bound)

theorem mem_without {x : Ident} {names bound : List Ident} :
  x ∈ without names bound ↔ x ∈ names ∧ x ∉ bound
  := by
  simp [without]

theorem subset_append_without (names bound : List Ident) :
  names ⊆ bound ++ without names bound
  := by
  intro x _
  rw [List.mem_append, mem_without]
  tauto

mutual

/-- The names that an expression reads from outside. -/
def Expr.free : Expr → List Ident
  | .mk _ form => form.free

def Form.free : Form → List Ident
  | .lit _ => []
  | .ident name => [name]
  | .record label fields => freeOption label ++ freeFields fields
  | .tuple label values => freeOption label ++ freeList values
  | .binary _ left right => left.free ++ right.free
  | .unary _ operand => operand.free
  | .content cell => cell.free
  | .select record feature => record.free ++ feature.free
  | .apply proc args => proc.free ++ freeList args
  | .selectApply record _ args => record.free ++ freeList args
  | .var decls => freeDecls decls
  | .unify left right => left.free ++ right.free
  | .assign cell value => cell.free ++ value.free
  | .func name params body => name.toList ++ without (freeList body) (declaredNames body ++ params)
  | .proc name params body => name.toList ++ without (freeList body) (declaredNames body ++ params)
  | .block body => without (freeList body) (declaredNames body)
  | .ifElse branches otherwise => freeBranches branches ++ freeOtherwise otherwise
  | .cases arg clauses otherwise => arg.free ++ freeClauses clauses ++ freeOtherwise otherwise
  | .whileLoop cond body => cond.free ++ without (freeList body) (declaredNames body)
  | .forLoop name iter body => iter.free ++ without (freeList body) (declaredNames body ++ [name])
  | .attempt body catches final =>
    without (freeList body) (declaredNames body) ++ freeClauses catches ++ freeOtherwise final
  | .throw value => value.free
  | .ret value => freeOption value
  | .brk => []
  | .cont => []
  | .skip => []
  | .actor name params items =>
    name :: without (freeItems items) (declaredNames (ActorItem.sentences items) ++ params)

def freeList : List Expr → List Ident
  | [] => []
  | e :: rest => e.free ++ freeList rest

def freeOption : Option Expr → List Ident
  | none => []
  | some e => e.free

def freeOtherwise : Option (List Expr) → List Ident
  | none => []
  | some body => without (freeList body) (declaredNames body)

def freeFields : List (Expr × Expr) → List Ident
  | [] => []
  | (feature, value) :: rest => feature.free ++ value.free ++ freeFields rest

def Decl.free : Decl → List Ident
  | .mk name value => name :: freeOption value

def freeDecls : List Decl → List Ident
  | [] => []
  | decl :: rest => decl.free ++ freeDecls rest

def Branch.free : Branch → List Ident
  | .mk cond body => cond.free ++ without (freeList body) (declaredNames body)

def freeBranches : List Branch → List Ident
  | [] => []
  | branch :: rest => branch.free ++ freeBranches rest

/-- A name whose value is to be matched is read, even if the pattern captures it, too. -/
def Clause.free : Clause → List Ident
  | .mk pattern guard body => namesRead pattern.uses ++
    without (freeOption guard ++ without (freeList body) (declaredNames body)) (captured pattern.uses)

def freeClauses : List Clause → List Ident
  | [] => []
  | clause :: rest => clause.free ++ freeClauses rest

def ActorItem.free : ActorItem → List Ident
  | .sentence e => e.free
  | .handler _ clause => clause.free

def freeItems : List ActorItem → List Ident
  | [] => []
  | item :: rest => item.free ++ freeItems rest

end

mutual

/-- The places where an expression delivers its value, by the names that are bound around them. -/
def Expr.places : Expr → List (List Ident)
  | .mk _ form => form.places

def Form.places : Form → List (List Ident)
  | .lit _ => [[]]
  | .ident _ => [[]]
  | .record _ _ => [[]]
  | .tuple _ _ => [[]]
  | .binary op _ right => if op.prim?.isSome then [[]] else [] :: right.places
  | .unary _ _ => [[]]
  | .content _ => [[]]
  | .select _ _ => [[]]
  | .apply _ _ => [[]]
  | .selectApply _ _ _ => [[]]
  | .var _ => []
  | .unify _ _ => []
  | .assign _ _ => []
  | .func _ _ _ => [[]]
  | .proc _ _ _ => [[]]
  | .block body => (lastPlaces body).map (declaredNames body ++ ·)
  | .ifElse branches otherwise => branchPlaces branches ++ otherwisePlaces otherwise
  | .cases _ clauses otherwise => firstPlaces clauses ++ otherwisePlaces otherwise
  | .whileLoop _ _ => []
  | .forLoop _ _ _ => []
  | .attempt body catches _ => (lastPlaces body).map (declaredNames body ++ ·) ++ firstPlaces catches
  | .throw _ => []
  | .ret _ => []
  | .brk => []
  | .cont => []
  | .skip => []
  | .actor _ _ _ => [[]]

/-- Only the last sentence delivers its value. -/
def lastPlaces : List Expr → List (List Ident)
  | [] => []
  | [e] => e.places
  | _ :: rest => lastPlaces rest

def Branch.places : Branch → List (List Ident)
  | .mk _ body => (lastPlaces body).map (declaredNames body ++ ·)

def branchPlaces : List Branch → List (List Ident)
  | [] => []
  | branch :: rest => branch.places ++ branchPlaces rest

def otherwisePlaces : Option (List Expr) → List (List Ident)
  | none => []
  | some body => (lastPlaces body).map (declaredNames body ++ ·)

/-- What the clauses after the first deliver goes through a procedure, which is called in the scope of what the first
captures, or outside of it. -/
def firstPlaces : List Clause → List (List Ident)
  | [] => []
  | .mk pattern _ body :: _ => [] :: captured pattern.uses ::
    (lastPlaces body).map (captured pattern.uses ++ declaredNames body ++ ·)

end

/-! ### The names of parts -/

theorem subset_of_cons {α β : Type} {f : List α → List β} {g : α → List β} {a : α} {list : List α}
    (hcons : ∀ a rest, f (a :: rest) = g a ++ f rest) (h : a ∈ list) :
  g a ⊆ f list
  := by
  induction list with
  | nil => cases h
  | cons _ _ ih =>
    rw [hcons]
    rcases List.mem_cons.mp h with rfl | h
    · exact List.subset_append_left _ _
    · exact List.Subset.trans (ih h) (List.subset_append_right _ _)

theorem free_subset_freeList {e : Expr} {body : List Expr} (h : e ∈ body) :
  e.free ⊆ freeList body
  := subset_of_cons (fun _ _ => rfl) h

theorem free_subset_freeOption {e : Expr} {o : Option Expr} (h : e ∈ o) :
  e.free ⊆ freeOption o
  := by
  cases h
  exact List.Subset.refl _

theorem free_subset_freeFields {f : Expr × Expr} {fields : List (Expr × Expr)} (h : f ∈ fields) :
  f.1.free ++ f.2.free ⊆ freeFields fields
  := subset_of_cons (g := fun f => f.1.free ++ f.2.free) (fun _ _ => rfl) h

theorem free_subset_freeDecls {decl : Decl} {decls : List Decl} (h : decl ∈ decls) :
  decl.free ⊆ freeDecls decls
  := subset_of_cons (fun _ _ => rfl) h

theorem free_subset_freeBranches {branch : Branch} {branches : List Branch} (h : branch ∈ branches) :
  branch.free ⊆ freeBranches branches
  := subset_of_cons (fun _ _ => rfl) h

theorem free_subset_freeClauses {clause : Clause} {clauses : List Clause} (h : clause ∈ clauses) :
  clause.free ⊆ freeClauses clauses
  := subset_of_cons (fun _ _ => rfl) h

theorem free_subset_freeItems {item : ActorItem} {items : List ActorItem} (h : item ∈ items) :
  item.free ⊆ freeItems items
  := subset_of_cons (fun _ _ => rfl) h

theorem places_subset_branchPlaces {branch : Branch} {branches : List Branch} (h : branch ∈ branches) :
  branch.places ⊆ branchPlaces branches
  := subset_of_cons (fun _ _ => rfl) h

end ActorLang
