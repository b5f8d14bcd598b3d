/-!
# Error codes

Every error that a user can see has a stable code, with a short description and an
explanation.
-/

namespace ActorLang

/-- An error code with what is to be said about it. -/
structure ErrorCode where
  code : String
  short : String
  body : List String

namespace ErrorCode

def long (e : ErrorCode) : String :=
  "## " ++ e.code ++ ": " ++ e.short ++ "\n\n" ++ String.join (e.body.map (· ++ "\n"))

/-- A line of code under a heading. -/
def sample (heading code : String) : List String :=
  ["", "**" ++ heading ++ ":**", "", "    " ++ code]

def lexing : List ErrorCode :=
  [⟨"TQ-L001", "unexpected character",
    ["A character was encountered that does not start any torqlang token."] ++
     sample "Example" "var x = 1 ^ 2" ++
     ["", "`^` is not an operator. Remove it or use one of `+ - * / %`."]⟩,
   ⟨"TQ-L002", "identifier starts with '$'",
    ["Identifiers beginning with `$` are reserved for names the compiler",
     "generates (`$v0`, `$r`, `$m`, ...). They cannot appear in source."] ++
     sample "Example that triggers this" "var $tmp = 1" ++ sample "Fix" "var tmp = 1"⟩,
   ⟨"TQ-L003", "unterminated string literal",
    ["A string opened with `'` or `\"` never closes on the same token."] ++
     sample "Example" "var s = 'hello" ++ sample "Fix" "var s = 'hello'"⟩,
   ⟨"TQ-L004", "malformed numeric literal",
    ["A number is out of range for its type or has an invalid suffix.",
     "Integer literals widen from Int32 to Int64 automatically; `L` forces",
     "Int64, `f` Flt32, `m` Dec128."] ++ sample "Example" "var n = 99999999999999999999L"⟩]

def parsing : List ErrorCode :=
  [⟨"TQ-P001", "expected expression",
    ["The parser needed a value (literal, identifier, record, call, ...) but",
     "found another token."] ++ sample "Example" "var x = then"⟩,
   ⟨"TQ-P002", "expected expression, got end of input",
    ["The source ended where a value was required."] ++ sample "Example" "var x ="⟩,
   ⟨"TQ-P003", "unexpected token",
    ["A specific token was required, such as `then`, `do`, `in` or `end`, and",
     "something else was found."] ++
     sample "Example" "if x do y end" ++ sample "Fix" "if x then y end"⟩,
   ⟨"TQ-P004", "unexpected end of input",
    ["A construct was still open when the source ended. Every `if`, `case`,",
     "`while`, `for`, `try`, `func`, `proc`, `actor`, `handle` and `begin`",
     "closes with `end`."]⟩,
   ⟨"TQ-P005", "expected identifier",
    ["A name was required, for example after `var`, `for`, or inside a",
     "parameter list."] ++ sample "Example" "func (1) in 1 end"⟩,
   ⟨"TQ-P006", "expected identifier, got end of input",
    ["The source ended where a name was required."]⟩,
   ⟨"TQ-P007", "invalid pattern",
    ["Patterns are literals, identifiers, `~name`, `_`, record patterns",
     "`\x7bf: p, ...\x7d` and tuple patterns `[p, ...]`, optionally labeled with",
     "`label#`."] ++ sample "Example" "case x of f(y) then y end"⟩,
   ⟨"TQ-P008", "unexpected token at top level",
    ["A keyword that only continues an enclosing construct (`end`, `else`,",
     "`of`, `catch`, ...) appeared where a new sentence was expected."]⟩,
   ⟨"TQ-P009", "case without clauses",
    ["A `case` needs at least one `of pattern then ...` clause."]⟩]

def lowering : List ErrorCode :=
  [⟨"TQ-G001", "invalid pattern feature",
    ["Record pattern features must be feature literals (Bool, Int32, Int64,",
     "Char, Str, null, eof) or escaped identifiers. Floats and decimals are",
     "not features, and a plain identifier would bind rather than match."] ++
     sample "Example that triggers this" "case r of \x7b1.5: y\x7d then y end"⟩,
   ⟨"TQ-G002", "invalid pattern label",
    ["A pattern label must be a literal or `~name`."] ++
     sample "Example that triggers this" "case t of l#[y] then y end" ++ sample "Fix" "case t of ~l#[y] then y end"⟩,
   ⟨"TQ-G003", "break outside a loop",
    ["`break` may only appear inside `while` or `for`, and not inside a",
     "function or proc defined within the loop."]⟩,
   ⟨"TQ-G004", "continue outside a loop",
    ["`continue` may only appear inside `while` or `for`, and not inside a",
     "function or proc defined within the loop."]⟩,
   ⟨"TQ-G005", "return outside a function",
    ["`return` needs an enclosing `func` or `proc`. Actor bodies and handlers",
     "cannot return."]⟩,
   ⟨"TQ-G006", "proc returns a value",
    ["A `proc` has no result, so `return` inside it takes no value. Use",
     "`func` if the caller needs a value."]⟩]

def running : List ErrorCode :=
  [⟨"TQ-R001", "NotBoundError",
    ["A value was required but its variable was never bound, for example",
     "`assert_bound(x)` on a fresh `var x`, or an ask handler that finished",
     "without producing a result."]⟩,
   ⟨"TQ-R002", "AskNotHandledError",
    ["No `handle ask` clause of the actor matched the message. The error",
     "record is sent back as the response; the actor keeps running."]⟩,
   ⟨"TQ-R003", "TellNotHandledError",
    ["No `handle tell` clause of the actor matched the message. The actor",
     "halts."]⟩,
   ⟨"TQ-R004", "ArithmeticError",
    ["Integer or decimal division by zero, or overflow. Floats follow IEEE 754",
     "and never raise this."]⟩,
   ⟨"TQ-R005", "TypeError",
    ["An operation received a value of the wrong type, such as `1 + 'a'`, a",
     "non-Bool `if` condition, or a float used as a record feature."]⟩,
   ⟨"TQ-R006", "UnificationError",
    ["Two values could not be made equal: `var x = 1  x = 2`, or records with",
     "different labels or features."]⟩,
   ⟨"TQ-R007", "ArityError",
    ["A proc was applied to the wrong number of arguments. Functions take one",
     "extra hidden argument for their result."]⟩,
   ⟨"TQ-R008", "NotProcError",
    ["A value that is not a proc was applied."]⟩,
   ⟨"TQ-R009", "FeatureNotFoundError",
    ["`r.f` or `r[f]` named a feature the record does not have, or an actor",
     "was sent something other than `ask` or `tell`."]⟩,
   ⟨"TQ-R010", "IdentNotFoundError",
    ["An identifier was used without a `var` declaration in scope."]⟩,
   ⟨"TQ-R011", "NotPortableError",
    ["Only complete values cross actors. Cells and unbound variables cannot",
     "be sent as messages, responses or actor configuration arguments."]⟩,
   ⟨"TQ-R012", "StepLimitError",
    ["A run executed more statements than `machine.max_steps` allows. Raise",
     "the limit in the config file or with TORQ_MAX_STEPS, or set it to 0."]⟩,
   ⟨"TQ-R013", "ActorStoppedError",
    ["A message was sent to an actor that has stopped, or an actor stopped",
     "before answering a request."]⟩,
   ⟨"TQ-R014", "JumpError",
    ["A `$jump_throw` found no matching `$jump_catch`. This indicates a",
     "compiler bug, not a user error."]⟩,
   ⟨"TQ-R015", "uncaught value",
    ["A program threw a value that no `try` caught."] ++ sample "Example" "throw 'oops'"⟩]

def configuring : List ErrorCode :=
  [⟨"TQ-C001", "cannot read config file",
    ["The file given to `--config` does not exist or is not readable."]⟩,
   ⟨"TQ-C002", "invalid config file",
    ["The config file is not valid TOML or has unknown keys. Accepted:",
     "",
     "    [machine]",
     "    max_steps = 0",
     "",
     "    [log]",
     "    filter = \"warn\"",
     "    json = false"]⟩,
   ⟨"TQ-C003", "invalid environment override",
    ["TORQ_MAX_STEPS must be a non-negative integer."]⟩]

def all : List ErrorCode := lexing ++ parsing ++ lowering ++ running ++ configuring

def find? (code : String) : Option ErrorCode := all.find? (·.code = code)

/-- The code of a thrown error record with a name, or of any other thrown value. -/
def ofThrown (name : Option String) : String :=
  match name.bind fun n => running.find? (·.short = n) with
  | some e => e.code
  | none => "TQ-R015"

end ErrorCode

end ActorLang
