/-!
# Arguments of the command

`Invocation.ofArgs` reads the arguments of the command from left to right, so a request for help
goes before whatever is wrong behind it.
-/

namespace ActorLang

/-- An intermediate form that is printed instead of running a program. -/
inductive Emit where
  | ast
  | kernel
  deriving DecidableEq

def Emit.ofName? : String → Option Emit
  | "ast" => some ast
  | "kernel" => some kernel
  | _ => none

/-- What the command is asked to do. -/
structure Invocation where
  /-- The name of a source file, or source text. -/
  input : Option String := none
  emit : Option Emit := none
  json : Bool := false
  config : Option String := none
  log : Option String := none
  explain : Option String := none

/-! ### Refusals -/

/-- The options that take a value. -/
inductive ValueOption where
  | emit
  | config
  | log
  | explain
  deriving DecidableEq

namespace ValueOption

def ofName? : String → Option ValueOption
  | "emit" => some emit
  | "config" => some config
  | "log" => some log
  | "explain" => some explain
  | _ => none

def display : ValueOption → String
  | emit => "--emit <EMIT>"
  | config => "--config <PATH>"
  | log => "--log <FILTER>"
  | explain => "--explain <CODE>"

/-- The line that lists the values of an option, if they are fixed. -/
def choices : ValueOption → String
  | emit => "\n  [possible values: ast, kernel]"
  | _ => ""

end ValueOption

inductive UsageError where
  | unknown (arg : String)
  | repeated (option : String)
  | missingValue (option : ValueOption)
  | badValue (option : ValueOption) (value : String)
  | unneededValue (flag value : String)
  | conflict (first second : String)
  | noInput

namespace UsageError

def usage : String := "\n\nUsage: torq [OPTIONS] [INPUT]"

def message : UsageError → String
  | unknown arg => "unexpected argument '" ++ arg ++ "' found" ++ usage
  | repeated option => "the argument '" ++ option ++ "' cannot be used multiple times" ++ usage
  | missingValue option | badValue option "" =>
    "a value is required for '" ++ option.display ++ "' but none was supplied" ++ option.choices
  | badValue option value =>
    "invalid value '" ++ value ++ "' for '" ++ option.display ++ "'" ++ option.choices
  | unneededValue flag value =>
    "unexpected value '" ++ value ++ "' for '" ++ flag ++ "' found; no more were expected" ++ usage
  | conflict first second =>
    "the argument '" ++ first ++ "' cannot be used with '" ++ second ++ "'" ++ usage
  | noInput =>
    "the following required arguments were not provided:\n  <INPUT>\n\nUsage: torq <INPUT>"

end UsageError

/-- What the arguments of the command come to. -/
inductive Request where
  | help
  | version
  | refuse (error : UsageError)
  | perform (invocation : Invocation)

/-! ### Single arguments -/

/-- What an argument is by its form. -/
inductive Arg where
  /-- An input, or the value of the option before it. -/
  | plain
  /-- Two dashes, behind which no argument is an option. -/
  | dashes
  | json
  /-- An option with a value, which is part of the argument or the next argument. -/
  | valued (option : ValueOption) (value : Option String)
  /-- An argument that settles the request. -/
  | last (request : Request)

namespace Arg

/-- The option of a name behind two dashes, with what follows an equals sign. -/
def ofLong (name : String) (value : Option String) : Arg :=
  match ValueOption.ofName? name with
  | some option => .valued option value
  | none =>
    let flag : Option Arg := match name with
      | "json" => some .json
      | "help" => some (.last .help)
      | "version" => some (.last .version)
      | _ => none
    match flag, value with
    | none, _ => .last (.refuse (.unknown ("--" ++ name)))
    | some arg, none => arg
    | some _, some value => .last (.refuse (.unneededValue ("--" ++ name) value))

def ofText (arg : String) : Arg :=
  match arg.toList with
  | ['-', '-'] => .dashes
  | '-' :: '-' :: cs =>
    let name := String.ofList (cs.takeWhile (· != '='))
    match cs.dropWhile (· != '=') with
    | [] => ofLong name none
    | _ :: value => ofLong name (some (String.ofList value))
  | '-' :: 'h' :: _ => .last .help
  | '-' :: 'V' :: _ => .last .version
  | '-' :: c :: _ => .last (.refuse (.unknown (String.ofList ['-', c])))
  | _ => .plain

end Arg

/-! ### Reading -/

namespace Invocation

def withValue (i : Invocation) (option : ValueOption) (value : String) :
    Except UsageError Invocation := do
  let once (given : Bool) : Except UsageError Unit :=
    if given then .error (.repeated option.display) else .ok ()
  match option with
  | .emit =>
    once i.emit.isSome
    match Emit.ofName? value with
    | none => .error (.badValue .emit value)
    | some form => return { i with emit := some form }
  | .config =>
    once i.config.isSome
    if value.isEmpty then .error (.badValue .config value)
    else return { i with config := some value }
  | .log =>
    once i.log.isSome
    return { i with log := some value }
  | .explain =>
    once i.explain.isSome
    return { i with explain := some value }

/-- The invocation with an argument that is no option. -/
def withInput (i : Invocation) (arg : String) : Except UsageError Invocation :=
  if i.input.isSome then .error (.unknown arg) else .ok { i with input := some arg }

/-- Whether all arguments together are an invocation. -/
def finish (i : Invocation) : Request :=
  match i.explain, i.input, i.emit with
  | some _, some _, _ => .refuse (.conflict (ValueOption.display .explain) "[INPUT]")
  | some _, none, some _ =>
    .refuse (.conflict (ValueOption.display .explain) (ValueOption.display .emit))
  | none, none, _ => .refuse .noInput
  | _, _, _ => .perform i

/-- Arguments behind `--`, which are no options. -/
def readInputs (i : Invocation) : List String → Request
  | [] => i.finish
  | arg :: rest => match i.withInput arg with
    | .ok i => i.readInputs rest
    | .error e => .refuse e

/-- The arguments after those that gave `i` and an option that waits for its value. -/
def read (i : Invocation) (pending : Option ValueOption) : List String → Request
  | [] => match pending with
    | some option => .refuse (.missingValue option)
    | none => i.finish
  | arg :: rest =>
    let goOn : Except UsageError Invocation → Request
      | .ok i => i.read none rest
      | .error e => .refuse e
    match pending, Arg.ofText arg with
    | some option, .plain => goOn (i.withValue option arg)
    | some option, _ => .refuse (.missingValue option)
    | none, .plain => goOn (i.withInput arg)
    | none, .dashes => i.readInputs rest
    | none, .json =>
      if i.json then .refuse (.repeated "--json") else { i with json := true }.read none rest
    | none, .valued option none => i.read (some option) rest
    | none, .valued option (some value) => goOn (i.withValue option value)
    | none, .last request => request

def ofArgs (args : List String) : Request := ({} : Invocation).read none args

end Invocation

end ActorLang
