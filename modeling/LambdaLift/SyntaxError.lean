import LambdaLift.Span

/-!
# Syntax errors

Reading a source text stops at the first error. An error names its cause and the spans that it is
about; the wording, the code, the advice and the labels shown to the user are functions of it.
-/

namespace LambdaLift

/-- The two kinds of bracket of the language. -/
inductive Delimiter where
  | paren
  | brace
deriving DecidableEq, Repr

/-- The character that opens a bracketed part. -/
def Delimiter.opening : Delimiter → Char
  | paren => '('
  | brace => '{'

/-- The character that closes a bracketed part. -/
def Delimiter.closing : Delimiter → Char
  | paren => ')'
  | brace => '}'

/-- A construct whose tokens are fine one by one and wrong together. -/
inductive Construct where
  /-- A run of digits with an identifier character directly after it. -/
  | integerLiteral
  /-- A bracketed group before an arrow that holds more than symbols. -/
  | parameterList
  /-- A bracketed group with nothing in it. -/
  | application
deriving DecidableEq, Repr

/-- The name of the construct in messages. -/
def Construct.name : Construct → String
  | integerLiteral => "integer literal"
  | parameterList => "lambda parameter list"
  | application => "application"

/-- What the user can do about a wrong construct. -/
def Construct.advice : Construct → String
  | integerLiteral => "identifiers cannot start with a digit"
  | parameterList => "lambda parameters must be plain identifiers"
  | application => "an application needs a callee, e.g. `(f x)`"

/-- Why a source text has no parse tree. -/
inductive SyntaxError where
  /-- A character that starts neither a token nor a comment. -/
  | unexpectedCharacter (character : Char) (span : Span)
  /-- A token that cannot start an expression where one is due. -/
  | unexpectedToken (text : String) (span : Span)
  /-- The text ends where an expression is due. -/
  | missingExpression (span : Span)
  /-- The text ends inside a bracketed part. -/
  | unclosedDelimiter (delimiter : Delimiter) (opening expectedClose : Span)
  /-- A construct that is wrong as a whole. -/
  | invalid (construct : Construct) (span : Span)
deriving DecidableEq, Repr

/-- A place that an error report points at, with the remark written beside it. -/
structure Label where
  remark : Option String
  span : Span
deriving DecidableEq, Repr

namespace SyntaxError

/-- The one-line description of the error. -/
def message : SyntaxError → String
  | unexpectedCharacter c _ => s!"unexpected character `{c}`"
  | unexpectedToken t _ => s!"unexpected token `{t}`"
  | missingExpression _ => "expected an expression, found end of file"
  | unclosedDelimiter _ _ _ => "this file contains an unclosed delimiter"
  | invalid k _ => "invalid " ++ k.name

/-- The stable identifier of the kind of error. -/
def code : SyntaxError → String
  | unexpectedCharacter _ _ => "parser::unexpected_character"
  | unexpectedToken _ _ => "parser::unexpected_token"
  | missingExpression _ => "parser::missing_token"
  | unclosedDelimiter _ _ _ => "parser::unclosed_delimiter"
  | invalid _ _ => "parser::invalid_syntax"

/-- Advice for the user, where there is any. -/
def help : SyntaxError → Option String
  | unexpectedCharacter _ _ => none
  | unexpectedToken _ _ => some "this token is not valid here"
  | missingExpression _ => none
  | unclosedDelimiter d _ _ => some ("add a closing `" ++ d.closing.toString ++ "`")
  | invalid k _ => some k.advice

/-- The span that the error is about. -/
def span : SyntaxError → Span
  | unexpectedCharacter _ s => s
  | unexpectedToken _ s => s
  | missingExpression s => s
  | unclosedDelimiter _ opening _ => opening
  | invalid _ s => s

/-- The places that a report of the error points at. -/
def labels : SyntaxError → List Label
  | unexpectedCharacter _ s => [⟨some "not valid here", s⟩]
  | unexpectedToken _ s => [⟨some "unexpected token", s⟩]
  | missingExpression s => [⟨some "expected an expression here", s⟩]
  | unclosedDelimiter _ opening expectedClose =>
    [⟨some "unclosed delimiter", opening⟩, ⟨none, expectedClose⟩]
  | invalid k s => [⟨some (k.name ++ " is invalid"), s⟩]

end SyntaxError

end LambdaLift
