import LambdaLift.Span

/-!
# Tokens

The words of the language: six marks, the arrow, identifiers and decimal integers. A token list ends
with a token of kind `eof` at the end of the text.
-/

namespace LambdaLift

/-- The kind of a token. -/
inductive Token.Kind where
  | lparen
  | rparen
  | lbrace
  | rbrace
  | arrow
  | equals
  | semicolon
  | ident
  | int
  | eof
deriving DecidableEq, Repr

/-- A token with its place in the source and the text that stands there. -/
structure Token where
  kind : Token.Kind
  span : Span
  text : String
deriving DecidableEq, Repr

namespace Token

/-- Whether a character can start an identifier. -/
def isIdentStart (c : Char) : Bool := c.isAlpha || c == '_'

/-- Whether a character can stand inside an identifier. -/
def isIdentContinue (c : Char) : Bool := c.isAlphanum || c == '_'

theorem isIdentContinue_of_isIdentStart {c : Char} (h : isIdentStart c) : isIdentContinue c := by
  simp only [isIdentStart, isIdentContinue, Char.isAlphanum, Bool.or_eq_true] at h ⊢
  exact h.imp_left Or.inl

theorem isIdentContinue_of_isDigit {c : Char} (h : c.isDigit) : isIdentContinue c := by
  simp [isIdentContinue, Char.isAlphanum, h]

end Token

end LambdaLift
