import ActorLang.Config.Toml
import ActorLang.Text.Space

/-!
# Settings

The settings of a run come from a configuration file and from the environment, which goes before
the file.
-/

namespace ActorLang

structure Config where
  /-- The statements that one run may execute; 0 is no limit. -/
  maxSteps : Nat := 0
  logFilter : String := "warn"
  logJson : Bool := false
  deriving DecidableEq

inductive ConfigError where
  | unreadable (path reason : String)
  | invalid (path : String)
  | notNumber (name value : String)

def ConfigError.code : ConfigError → String
  | unreadable .. => "TQ-C001"
  | invalid .. => "TQ-C002"
  | notNumber .. => "TQ-C003"

def ConfigError.message : ConfigError → String
  | unreadable path reason => "cannot read " ++ path ++ ": " ++ reason
  | invalid path => "invalid config " ++ path ++ ": TOML parse error"
  | notNumber name value => name ++ " must be a number, got '" ++ value ++ "'"

namespace Config

open Toml

/-! ### From a file -/

/-- A setting as it is read from a node, or none if the node is of another type. -/
abbrev Setting := Config → Node → Option Config

def setMaxSteps : Setting
  | config, .integer n => if 0 ≤ n then some { config with maxSteps := n.toNat } else none
  | _, _ => none

def setLogFilter : Setting
  | config, .string text => some { config with logFilter := text }
  | _, _ => none

def setLogJson : Setting
  | config, .boolean b => some { config with logJson := b }
  | _, _ => none

/-- The settings of a table: each entry has a known name. -/
def setEntries (settings : List (String × Setting)) (config : Config) :
    Entries → Option Config
  | [] => some config
  | (name, node) :: rest => do
    let setting ← settings.lookup name
    setEntries settings (← setting config node) rest

def setItems : List (String × Setting) → Config → List Node → Option Config
  | (_, setting) :: settings, config, node :: rest => do
    setItems settings (← setting config node) rest
  | _, config, _ => some config

def group (settings : List (String × Setting)) : Setting
  | config, .table _ _ entries => setEntries settings config entries
  | config, .inlineTable entries => setEntries settings config entries
  | config, .array items => setItems settings config items
  | _, _ => none

def settings : List (String × Setting) :=
  [("machine", group [("max_steps", setMaxSteps)]),
   ("log", group [("filter", setLogFilter), ("json", setLogJson)])]

def ofToml? (text : String) : Option Config := do
  setEntries settings {} (← Toml.parse? text)

/-! ### From the environment -/

structure Environment where
  maxSteps : Option String := none
  log : Option String := none

/-- The number that a text spells in digits, perhaps after a plus sign and with white space around
it, if it has at most 64 bits. -/
def number? (text : String) : Option Nat :=
  let cs := ((text.toList.dropWhile isSpace).reverse.dropWhile isSpace).reverse
  (unsigned? cs).filter (· < twoTo 64)

def withEnvironment (config : Config) (env : Environment) : Except ConfigError Config := do
  let config ← match env.maxSteps with
    | none => .ok config
    | some text => match number? text with
      | some n => .ok { config with maxSteps := n }
      | none => .error (.notNumber "TORQ_MAX_STEPS" text)
  return { config with logFilter := env.log.getD config.logFilter }

end Config

end ActorLang
