import ActorLang.Kernel.Basic

/-!
# Free identifiers

The identifiers that a statement reads from its surroundings.  A procedure captures those of
its body that are not among its parameters.
-/

namespace ActorLang.Kernel

def Operand.idents : Operand → List Ident
  | ident name => [name]
  | lit _ => []

def operandIdents (args : List Operand) : List Ident := args.flatMap Operand.idents

namespace Stmt

mutual

/-- The occurrences of free identifiers, in order. -/
def occurrences : Stmt → List Ident
  | scope idents body => (occurrences body).filter (!idents.contains ·)
  | seq stmts => listOccurrences stmts
  | skip => []
  | bind arg target => arg.idents ++ [target]
  | binary _ left right target => left.idents ++ right.idents ++ [target]
  | negate arg target => arg.idents ++ [target]
  | get cell target => cell.idents ++ [target]
  | set cell value => cell.idents ++ value.idents
  | select record feature target => record.idents ++ feature.idents ++ [target]
  | selectApply record path args => record.idents ++ operandIdents path ++ operandIdents args
  | createRecord label fields target =>
    operandIdents label.toList ++ fields.flatMap (fun (f, v) => f.idents ++ v.idents) ++ [target]
  | createTuple label values target =>
    operandIdents label.toList ++ operandIdents values ++ [target]
  | createProc params body target =>
    (occurrences body).filter (!params.contains ·) ++ [target]
  | createActor params body target =>
    (occurrences body).filter (!params.contains ·) ++ [target]
  | apply proc args => proc.idents ++ operandIdents args
  | ifElse cond yes no => cond.idents ++ occurrences yes ++ occurrences no
  | cases arg pattern yes no =>
    arg.idents ++ pattern.pinned ++ (occurrences yes).filter (!pattern.captures.contains ·) ++
      occurrences no
  | attempt body caught handler =>
    occurrences body ++ (occurrences handler).filter (· != caught)
  | throw arg => arg.idents
  | jumpThrow _ => []
  | jumpCatch _ => []

def listOccurrences : List Stmt → List Ident
  | [] => []
  | s :: rest => occurrences s ++ listOccurrences rest

end

/-- The free identifiers, each at its first occurrence. -/
def free (s : Stmt) : List Ident := s.occurrences.eraseDups

def captured (params : List Ident) (body : Stmt) : List Ident :=
  (body.occurrences.filter (!params.contains ·)).eraseDups

mutual

/-- The procedures that a statement creates, outer ones first: targets and captured
identifiers. -/
def procs : Stmt → List (Ident × List Ident)
  | scope _ body => procs body
  | seq stmts => listProcs stmts
  | createProc params body target => (target, captured params body) :: procs body
  | createActor params body target => (target, captured params body) :: procs body
  | ifElse _ yes no => procs yes ++ procs no
  | cases _ _ yes no => procs yes ++ procs no
  | attempt body _ handler => procs body ++ procs handler
  | _ => []

def listProcs : List Stmt → List (Ident × List Ident)
  | [] => []
  | s :: rest => procs s ++ listProcs rest

end

end Stmt

end ActorLang.Kernel
