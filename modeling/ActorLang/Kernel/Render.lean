import ActorLang.Kernel.Basic

/-!
# The text of kernel statements

One statement a line, indented by four blanks for each statement that encloses it.  An `else`
that does nothing is left out.
-/

namespace ActorLang.Kernel

def commaList (parts : List String) : String := String.intercalate ", " parts

def Operand.render : Operand → String
  | ident name => name
  | lit value => value.render

def renderOperands (args : List Operand) : String := commaList (args.map Operand.render)

def FeaturePattern.render : FeaturePattern → String
  | lit value => value.render
  | escaped name => "~" ++ name

def LeafPattern.render : LeafPattern → String
  | lit value => value.render
  | ident name => name
  | escaped name => "~" ++ name

namespace RecordPattern

/-- Whether the features are the positions `0, 1, …` of at least one field. -/
def isPositional (p : RecordPattern) : Bool :=
  !p.fields.isEmpty &&
    p.fields.zipIdx.all fun ((feature, _), i) => feature = .lit (.int32 (Int32.ofNat i))

/-- Records with positions for features are written as tuples. -/
def render (p : RecordPattern) : String :=
  let label := match p.label with
    | some l => l.render ++ "#"
    | none => ""
  let more := if p.isPartial then ["..."] else []
  if p.isPositional then
    label ++ "[" ++ commaList (p.fields.map (·.2.render) ++ more) ++ "]"
  else
    label ++ "\x7b" ++
      commaList (p.fields.map (fun (f, v) => f.render ++ ": " ++ v.render) ++ more) ++ "\x7d"

end RecordPattern

def Pattern.render : Pattern → String
  | lit value => value.render
  | ident name => name
  | escaped name => "~" ++ name
  | record p => p.render

namespace Stmt

/-- The text of a label before the fields of a record. -/
def labelText : Option Operand → String
  | some label => label.render ++ "#"
  | none => ""

def indented (lines : List String) : List String := lines.map ("    " ++ ·)

def isSkip : Stmt → Bool
  | skip => true
  | _ => false

mutual

def lines : Stmt → List String
  | scope idents body => ["local " ++ commaList idents ++ " in"] ++ indented (lines body) ++ ["end"]
  | seq stmts => listLines stmts
  | skip => ["skip"]
  | bind arg target => ["$bind(" ++ arg.render ++ ", " ++ target ++ ")"]
  | binary op left right target =>
    [op.name ++ "(" ++ left.render ++ ", " ++ right.render ++ ", " ++ target ++ ")"]
  | negate arg target => ["$negate(" ++ arg.render ++ ", " ++ target ++ ")"]
  | get cell target => ["$get(" ++ cell.render ++ ", " ++ target ++ ")"]
  | set cell value => ["$set(" ++ cell.render ++ ", " ++ value.render ++ ")"]
  | select record feature target =>
    ["$select(" ++ record.render ++ ", " ++ feature.render ++ ", " ++ target ++ ")"]
  | selectApply record path args =>
    ["$select_apply(" ++
      commaList (record.render :: ("[" ++ renderOperands path ++ "]") :: args.map Operand.render) ++
      ")"]
  | createRecord label fields target =>
    ["$create_rec(" ++ labelText label ++ "\x7b" ++
      commaList (fields.map fun (f, v) => f.render ++ ": " ++ v.render) ++ "\x7d, " ++ target ++
      ")"]
  | createTuple label values target =>
    ["$create_tuple(" ++ labelText label ++ "[" ++ renderOperands values ++ "], " ++ target ++ ")"]
  | createProc params body target =>
    ["$create_proc(proc (" ++ commaList params ++ ") in"] ++ indented (lines body) ++
      ["end, " ++ target ++ ")"]
  | createActor params body target =>
    ["$create_actor_cfgtr(proc (" ++ commaList params ++ ") in"] ++ indented (lines body) ++
      ["end, " ++ target ++ ")"]
  | apply proc args => [proc.render ++ "(" ++ renderOperands args ++ ")"]
  | ifElse cond yes no =>
    ["if " ++ cond.render ++ " then"] ++ indented (lines yes) ++
      (if no.isSkip then [] else "else" :: indented (lines no)) ++ ["end"]
  | cases arg pattern yes no =>
    ["case " ++ arg.render ++ " of " ++ pattern.render ++ " then"] ++ indented (lines yes) ++
      (if no.isSkip then [] else "else" :: indented (lines no)) ++ ["end"]
  | attempt body caught handler =>
    ["try"] ++ indented (lines body) ++ ["catch " ++ caught ++ " then"] ++
      indented (lines handler) ++ ["end"]
  | throw arg => ["throw " ++ arg.render]
  | jumpThrow label => ["$jump_throw(" ++ toString label ++ ")"]
  | jumpCatch label => ["$jump_catch(" ++ toString label ++ ")"]

def listLines : List Stmt → List String
  | [] => []
  | s :: rest => lines s ++ listLines rest

end

def render (s : Stmt) : String :=
  let text := (String.intercalate "\n" s.lines).toList
  String.ofList (text.reverse.dropWhile (· == '\n')).reverse

end Stmt

end ActorLang.Kernel
