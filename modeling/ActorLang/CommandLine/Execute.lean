import ActorLang.Actor.System
import ActorLang.CommandLine.Invocation
import ActorLang.Diagnostic.Render
import ActorLang.Kernel.Render
import ActorLang.Surface.Json

/-!
# What the command does

`execute` says what the command writes and how it ends, given its arguments and what it finds in
its surroundings.
-/

namespace ActorLang

structure Surroundings where
  /-- The configuration file that the arguments name: its text, or why it cannot be read. -/
  config : Except String String := .ok ""
  input : Option (Except String String) := none
  environment : Config.Environment := {}
  color : Bool := false

/-- What the command writes, and its exit code. -/
structure Output where
  code : Nat := 0
  stdout : String := ""
  stderr : String := ""

namespace Invocation

def report (i : Invocation) (around : Surroundings) (d : Diagnostic) : String :=
  if i.json then d.toJson.compress ++ "\n" else d.render around.color

/-- The end of a command that fails with a diagnostic. -/
def failed (i : Invocation) (around : Surroundings) (d : Diagnostic) : Output where
  code := 1
  stderr := i.report around d

def settings (i : Invocation) (around : Surroundings) : Except ConfigError Config := do
  let config ← match i.config, around.config with
    | none, _ => .ok ({} : Config)
    | some path, .error reason => .error (.unreadable path reason)
    | some path, .ok text => match Config.ofToml? text with
      | some config => .ok config
      | none => .error (.invalid path)
  let config ← config.withEnvironment around.environment
  return { config with logFilter := i.log.getD config.logFilter }

/-- The end of a command whose program has been evaluated. -/
def conclude (report : Diagnostic → String) (e : Evaluation) : Output :=
  let warnings := String.join (e.halts.map fun h => report (.ofActorHalt h))
  match e.status with
  | .done => { stdout := e.value ++ "\n", stderr := warnings }
  | .suspended =>
    { stdout := e.value ++ "\n"
      stderr := warnings ++ report
        { severity := .warning
          message := "program suspended on a variable that nothing will bind" } }
  | .halted => { code := 1, stderr := report (.ofHalt e) }

/-- The end of a command with a source text; a program runs with the given fuel. -/
def process (i : Invocation) (around : Surroundings) (config : Config) (source : String)
    (rounds fuel : Nat) : Option Output :=
  let report (d : Diagnostic) : String := i.report around { d with source := some source }
  let failure (e : CompileError) : Output := { code := 1, stderr := report (.ofCompileError e) }
  match i.emit with
  | some .ast => some <| match Program.ofSource source with
    | .ok program => { stdout := program.toJson.pretty ++ "\n" }
    | .error e => failure e
  | some .kernel => some <| match compile source with
    | .ok stmt => { stdout := stmt.render ++ "\n" }
    | .error e => failure e
  | none => match compile source with
    | .ok stmt => (runProgram rounds fuel stmt config.maxSteps).map (conclude report)
    | .error e => some (failure e)

/-- The end of a command that explains an error code. -/
def explanation (i : Invocation) (around : Surroundings) (code : String) : Output :=
  match ErrorCode.find? code with
  | some entry => { stdout := entry.long }
  | none => i.failed around { message := "unknown error code '" ++ code ++ "'" }

/-- What an invocation does. -/
def perform (i : Invocation) (around : Surroundings) (rounds fuel : Nat) : Option Output :=
  match i.explain with
  | some code => some (i.explanation around code)
  | none => match i.settings around with
    | .error e => some (i.failed around (.ofConfigError e))
    | .ok config =>
      let input := i.input.getD ""
      match around.input with
      | some (.error reason) =>
        some (i.failed around { message := "cannot read " ++ input ++ ": " ++ reason })
      | some (.ok source) => i.process around config source rounds fuel
      | none => i.process around config input rounds fuel

end Invocation

/-! ### Help -/

def versionText : String := "torq 0.1.0\n"

def helpText : String :=
  String.intercalate "\n"
    ["Compile and run torqlang programs", "",
     "Usage: torq [OPTIONS] [INPUT]", "",
     "Arguments:",
     "  [INPUT]  Source file, or inline code when no such file exists", "",
     "Options:",
     "      --emit <EMIT>     Print an intermediate form instead of running " ++
       "[possible values: ast, kernel]",
     "      --json            Report diagnostics as one-line JSON",
     "      --config <PATH>   TOML config file",
     "      --log <FILTER>    Log filter, overriding TORQ_LOG and the config file",
     "      --explain <CODE>  Explain an error code, e.g. TQ-G003",
     "  -h, --help            Print help",
     "  -V, --version         Print version", ""]

/-- What the command does; none if a program needs more rounds or fuel than there are. -/
def Request.execute (request : Request) (around : Surroundings) (rounds fuel : Nat) :
    Option Output :=
  match request with
  | .help => some { stdout := helpText }
  | .version => some { stdout := versionText }
  | .refuse e => some
    { code := 2
      stderr := "error: " ++ e.message ++ "\n\nFor more information, try '--help'.\n" }
  | .perform i => i.perform around rounds fuel

end ActorLang
