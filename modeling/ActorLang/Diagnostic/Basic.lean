import ActorLang.Compile
import ActorLang.Config.Basic
import ActorLang.Diagnostic.Registry
import ActorLang.Evaluation

/-!
# Diagnostics

What is told to a user: a message with a code, marked places in the source, notes and a
suggestion.
-/

namespace ActorLang

inductive Severity where
  | error
  | warning
  deriving DecidableEq

def Severity.name : Severity → String
  | error => "error"
  | warning => "warning"

/-- A marked place in the source. -/
structure Label where
  span : Span
  message : String

structure Diagnostic where
  severity : Severity := .error
  code : Option String := none
  message : String
  labels : List Label := []
  notes : List String := []
  suggestion : Option String := none
  source : Option String := none

namespace Diagnostic

def ofLexError (e : LexError) : Diagnostic where
  code := some e.code
  message := "unexpected token '" ++ e.snippet ++ "'"
  labels := [⟨e.span, "here"⟩]
  suggestion := some e.suggestion

def ofParseError (e : ParseError) : Diagnostic where
  code := some e.code
  message := e.cause.message
  labels := [⟨e.span, "here"⟩]

def ofLowerError (e : LowerError) : Diagnostic where
  code := some e.cause.code
  message := e.cause.message
  labels := if e.span = .unknown then [] else [⟨e.span, "here"⟩]

def ofCompileError : CompileError → Diagnostic
  | .lex e => ofLexError e
  | .parse e => ofParseError e
  | .lower e => ofLowerError e

def ofConfigError (e : ConfigError) : Diagnostic where
  code := some e.code
  message := e.message

def haltText (h : HaltReport) : String :=
  "actor " ++ toString h.actor ++ " halted: " ++ h.message

def ofHalt (e : Evaluation) : Diagnostic where
  code := some (ErrorCode.ofThrown e.error)
  message := "uncaught " ++ e.value
  notes := e.halts.map haltText

def ofActorHalt (h : HaltReport) : Diagnostic where
  severity := .warning
  code := some (ErrorCode.ofThrown h.name)
  message := haltText h

end Diagnostic

end ActorLang
