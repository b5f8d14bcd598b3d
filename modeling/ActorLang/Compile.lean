import ActorLang.Lowering.Program
import ActorLang.Surface.Parse

/-!
# Compiling source text

From source text to a program and to its kernel statement, with the errors of every stage.
-/

namespace ActorLang

inductive CompileError where
  | lex (error : LexError)
  | parse (error : ParseError)
  | lower (error : LowerError)

namespace CompileError

def code : CompileError → String
  | lex e => e.code
  | parse e => e.code
  | lower e => e.cause.code

def message : CompileError → String
  | lex e => e.message
  | parse e => e.message
  | lower e => e.cause.message

def span? : CompileError → Option Span
  | lex e => some e.span
  | parse e => some e.span
  | lower e => if e.span = .unknown then none else some e.span

end CompileError

def Program.ofSource (source : String) : Except CompileError Program := do
  let tokens ← (tokenize source).mapError .lex
  (Program.ofTokens tokens).mapError .parse

/-- The statement of a source text, whose value goes to the target. -/
def compile (source : String) (target : Target := .ident Kernel.programResult) :
    Except CompileError Kernel.Stmt := do
  let program ← Program.ofSource source
  (program.lower target).mapError .lower

end ActorLang
