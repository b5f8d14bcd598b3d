import ActorLang.Literal
import ActorLang.Text.Span
import ActorLang.Text.Escaped

/-!
# Tokens

The words and marks of a program text.  Reserved words and marks are enumerated with their
spelling; the other tokens carry the value they spell.
-/

namespace ActorLang

inductive Keyword where
  | actor | ask | begin | break_ | case_ | catch_
  | continue_ | do_ | else_ | elseIf | end_ | eof
  | false_ | finally_ | for_ | func | handle | if_
  | in_ | null | of_ | proc | return_ | skip
  | tell | then_ | throw | true_ | try_ | var
  | when | while_
  deriving DecidableEq

namespace Keyword

def all : List Keyword :=
  [.actor, .ask, .begin, .break_, .case_, .catch_, .continue_, .do_, .else_, .elseIf, .end_,
   .eof, .false_, .finally_, .for_, .func, .handle, .if_, .in_, .null, .of_, .proc, .return_,
   .skip, .tell, .then_, .throw, .true_, .try_, .var, .when, .while_]

def spelling : Keyword → String
  | actor => "actor"
  | ask => "ask"
  | begin => "begin"
  | break_ => "break"
  | case_ => "case"
  | catch_ => "catch"
  | continue_ => "continue"
  | do_ => "do"
  | else_ => "else"
  | elseIf => "elseif"
  | end_ => "end"
  | eof => "eof"
  | false_ => "false"
  | finally_ => "finally"
  | for_ => "for"
  | func => "func"
  | handle => "handle"
  | if_ => "if"
  | in_ => "in"
  | null => "null"
  | of_ => "of"
  | proc => "proc"
  | return_ => "return"
  | skip => "skip"
  | tell => "tell"
  | then_ => "then"
  | throw => "throw"
  | true_ => "true"
  | try_ => "try"
  | var => "var"
  | when => "when"
  | while_ => "while"

def name : Keyword → String
  | actor => "Actor"
  | ask => "Ask"
  | begin => "Begin"
  | break_ => "Break"
  | case_ => "Case"
  | catch_ => "Catch"
  | continue_ => "Continue"
  | do_ => "Do"
  | else_ => "Else"
  | elseIf => "ElseIf"
  | end_ => "End"
  | eof => "Eof"
  | false_ => "False"
  | finally_ => "Finally"
  | for_ => "For"
  | func => "Func"
  | handle => "Handle"
  | if_ => "If"
  | in_ => "In"
  | null => "Null"
  | of_ => "Of"
  | proc => "Proc"
  | return_ => "Return"
  | skip => "Skip"
  | tell => "Tell"
  | then_ => "Then"
  | throw => "Throw"
  | true_ => "True"
  | try_ => "Try"
  | var => "Var"
  | when => "When"
  | while_ => "While"

def ofSpelling? (s : String) : Option Keyword := all.find? fun k => k.spelling == s

end Keyword

inductive Mark where
  | lparen | rparen | lbracket | rbracket | lbrace | rbrace
  | comma | colon | dot | ellipsis | hash | tilde
  | atSign | wildcard | colonEq | assign | eq | notEq
  | less | lessEq | greater | greaterEq | plus | minus
  | star | slash | percent | andAnd | orOr | bang
  deriving DecidableEq

namespace Mark

def spelling : Mark → String
  | lparen => "("
  | rparen => ")"
  | lbracket => "["
  | rbracket => "]"
  | lbrace => "\x7b"
  | rbrace => "\x7d"
  | comma => ","
  | colon => ":"
  | dot => "."
  | ellipsis => "..."
  | hash => "#"
  | tilde => "~"
  | atSign => "@"
  | wildcard => "_"
  | colonEq => ":="
  | assign => "="
  | eq => "=="
  | notEq => "!="
  | less => "<"
  | lessEq => "<="
  | greater => ">"
  | greaterEq => ">="
  | plus => "+"
  | minus => "-"
  | star => "*"
  | slash => "/"
  | percent => "%"
  | andAnd => "&&"
  | orOr => "||"
  | bang => "!"

def name : Mark → String
  | lparen => "LParen"
  | rparen => "RParen"
  | lbracket => "LBracket"
  | rbracket => "RBracket"
  | lbrace => "LBrace"
  | rbrace => "RBrace"
  | comma => "Comma"
  | colon => "Colon"
  | dot => "Dot"
  | ellipsis => "Ellipsis"
  | hash => "Hash"
  | tilde => "Tilde"
  | atSign => "At"
  | wildcard => "Wildcard"
  | colonEq => "ColonEq"
  | assign => "Assign"
  | eq => "Eq"
  | notEq => "NotEq"
  | less => "Less"
  | lessEq => "LessEq"
  | greater => "Greater"
  | greaterEq => "GreaterEq"
  | plus => "Plus"
  | minus => "Minus"
  | star => "Star"
  | slash => "Slash"
  | percent => "Percent"
  | andAnd => "AndAnd"
  | orOr => "OrOr"
  | bang => "Bang"

end Mark

inductive Token where
  | word (k : Keyword)
  | mark (m : Mark)
  /-- An integer without a suffix that fits 32 bits. -/
  | int32 (n : Int32)
  /-- An integer without a suffix that does not fit 32 bits. -/
  | int64 (n : Int64)
  /-- An integer with the suffix of 64-bit integers. -/
  | long (n : Int64)
  | float (x : Binary64)
  | float32 (x : Binary32)
  | decimal (x : Decimal)
  | char (c : Char)
  | str (s : String)
  | ident (name : String)
  deriving DecidableEq

namespace Token

def kind : Token → String
  | word k => k.name
  | mark m => m.name
  | int32 _ => "Int32"
  | int64 _ => "Int64"
  | long _ => "Long"
  | float _ => "Float"
  | float32 _ => "Float32"
  | decimal _ => "Decimal"
  | char _ => "Char"
  | str _ => "Str"
  | ident _ => "Ident"

def valueText? : Token → Option String
  | word _ => none
  | mark _ => none
  | int32 n => some (toString n.toInt)
  | int64 n => some (toString n.toInt)
  | long n => some (toString n.toInt)
  | float x => some (Literal.floatNotation.render x)
  | float32 x => some (Literal.floatNotation.render x)
  | decimal x => some x.render
  | char c => some (String.singleton c)
  | str s => some s
  | ident name => some name

/-- How a token is shown in messages: its kind and, in parentheses, its value. -/
def describe : Token → String
  | int32 n => "Int(Int32(" ++ toString n.toInt ++ "))"
  | int64 n => "Int(Int64(" ++ toString n.toInt ++ "))"
  | char c => "Char(" ++ escapedChar c ++ ")"
  | str s => "Str(" ++ escapedString s ++ ")"
  | ident name => "Ident(" ++ escapedString name ++ ")"
  | t => match t.valueText? with
    | some text => t.kind ++ "(" ++ text ++ ")"
    | none => t.kind

end Token

/-- A token and the bytes it is written in. -/
structure Lexeme where
  token : Token
  span : Span
  deriving DecidableEq

end ActorLang
