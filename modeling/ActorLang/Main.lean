import ActorLang.CommandLine.Execute

/-!
# The command line
-/

namespace ActorLang.Main

/-- The steps that are more than any run takes. -/
def enough : Nat := 1000000000000000000

def reason : IO.Error → String
  | .noFileOrDirectory .. => "No such file or directory (os error 2)"
  | .permissionDenied .. => "Permission denied (os error 13)"
  | .inappropriateType .. => "Is a directory (os error 21)"
  | e => toString e

def readText (path : String) : IO (Except String String) := do
  match String.fromUTF8? (← IO.FS.readBinFile path) with
  | some text => return .ok text
  | none => return .error "stream did not contain valid UTF-8"

def configFile (path : String) : IO (Except String String) := do
  try readText path
  catch e => return .error (reason e)

def inputFile (name : String) : IO (Option (Except String String)) := do
  try readText name
  catch e => match e with
    | .permissionDenied .. => return some (.error (reason e))
    | _ => return none

def surroundings (i : Invocation) : IO Surroundings := do
  return {
    config := ← match i.config with
      | some path => configFile path
      | none => pure (.ok "")
    input := ← match i.input with
      | some name => inputFile name
      | none => pure none
    environment := {
      maxSteps := ← IO.getEnv "TORQ_MAX_STEPS"
      log := ← IO.getEnv "TORQ_LOG" }
    color := ← (← IO.getStderr).isTty }

end ActorLang.Main

open ActorLang in
def main (args : List String) : IO UInt32 := do
  let request := Invocation.ofArgs args
  let around ← match request with
    | .perform i => Main.surroundings i
    | _ => pure {}
  match request.execute around Main.enough Main.enough with
  | none => return 1
  | some output =>
    IO.print output.stdout
    IO.eprint output.stderr
    return output.code.toUInt32
