import LambdaLift.Parsed
import LambdaLift.SyntaxError
import LambdaLift.Text.Blank
import LambdaLift.Text.ByteLength
import LambdaLift.Token

/-!
# Reading tokens

`Token.read` cuts a source text into tokens, each as long as it can be. Blank characters and line
comments stand between tokens and leave no trace but the gaps between spans.
-/

namespace LambdaLift

open Text

/-- A place in a source: its byte offset and the characters from there on. -/
structure Cursor where
  offset : Nat
  rest : List Char
deriving DecidableEq, Repr

namespace Cursor

/-- The start of a source text. -/
def ofString (source : String) : Cursor := ⟨0, source.toList⟩

/-- The offset as a word, as spans give it. It wraps around at `2 ^ 32`. -/
def position (c : Cursor) : UInt32 := .ofNat c.offset

/-- Moves past the longest run of characters that satisfy `p`. -/
def skipWhile (p : Char → Bool) (c : Cursor) : Cursor :=
  ⟨c.offset + byteLength (c.rest.takeWhile p), c.rest.dropWhile p⟩

theorem rest_skipWhile_le (p : Char → Bool) (c : Cursor) :
    (c.skipWhile p).rest.length ≤ c.rest.length :=
  length_dropWhile_le p c.rest

/-- The characters behind a comment are fewer than those before it. -/
theorem length_lt_of_comment {c : Cursor} {offset : Nat} {cs : List Char}
    (h : c.skipWhile isBlank = ⟨offset, '/' :: '/' :: cs⟩) :
    (cs.dropWhile (· != '\n')).length < c.rest.length := by
  have hd := rest_skipWhile_le isBlank c
  have hcs := length_dropWhile_le (· != '\n') cs
  rw [h] at hd
  simp only [List.length_cons] at hd
  omega

/-- Moves past blank characters and comments. A comment runs from two slashes up to the next
newline, or to the end of the text. -/
def skipTrivia (c : Cursor) : Cursor :=
  match h : c.skipWhile isBlank with
  | ⟨offset, '/' :: '/' :: cs⟩ =>
    have := length_lt_of_comment h
    (skipWhile (· != '\n') ⟨offset + 2, cs⟩).skipTrivia
  | d => d
termination_by c.rest.length

theorem rest_skipTrivia_le (c : Cursor) : c.skipTrivia.rest.length ≤ c.rest.length := by
  fun_induction skipTrivia c with
  | case1 c offset cs h hlt ih => exact Nat.le_trans ih (Nat.le_of_lt hlt)
  | case2 c _ => exact rest_skipWhile_le isBlank c

/-- The token that covers the next characters `text`, and the cursor after it. The text is kept with
the token: a span that wrapped around does not lead back to it. -/
def token (c : Cursor) (kind : Token.Kind) (text rest : List Char) : Token × Cursor :=
  let stop : Cursor := ⟨c.offset + byteLength text, rest⟩
  (⟨kind, ⟨c.position, stop.position⟩, String.ofList text⟩, stop)

/-- The span of the next characters `text`. -/
def spanOf (c : Cursor) (text : List Char) : Span :=
  .ofOffsets c.offset (c.offset + byteLength text)

/-- Reads the token that starts at the cursor, where no trivia stands. -/
def lexeme (c : Cursor) : Except SyntaxError (Token × Cursor) :=
  match c.rest with
  | [] => .ok (c.token .eof [] [])
  | '(' :: cs => .ok (c.token .lparen ['('] cs)
  | ')' :: cs => .ok (c.token .rparen [')'] cs)
  | '{' :: cs => .ok (c.token .lbrace ['{'] cs)
  | '}' :: cs => .ok (c.token .rbrace ['}'] cs)
  | ';' :: cs => .ok (c.token .semicolon [';'] cs)
  | '=' :: '>' :: cs => .ok (c.token .arrow ['=', '>'] cs)
  | '=' :: cs => .ok (c.token .equals ['='] cs)
  | d :: cs =>
    if d.isDigit then
      if (cs.dropWhile Char.isDigit).head?.any Token.isIdentContinue then
        .error (.invalid .integerLiteral (c.spanOf (d :: cs.takeWhile Token.isIdentContinue)))
      else .ok (c.token .int (d :: cs.takeWhile Char.isDigit) (cs.dropWhile Char.isDigit))
    else if Token.isIdentStart d then
      .ok (c.token .ident (d :: cs.takeWhile Token.isIdentContinue)
        (cs.dropWhile Token.isIdentContinue))
    else .error (.unexpectedCharacter d (c.spanOf [d]))

/-- Reads the next token of the source. -/
def next (c : Cursor) : Except SyntaxError (Token × Cursor) := c.skipTrivia.lexeme

theorem rest_lexeme_lt {c d : Cursor} {t : Token} (h : c.lexeme = .ok (t, d))
    (ht : t.kind ≠ .eof) : d.rest.length < c.rest.length := by
  unfold lexeme at h
  split at h <;> rename_i hc <;> rw [hc]
  case h_1 => cases h; exact absurd rfl ht
  case h_9 =>
    rename_i d' cs _ _ _ _ _ _ _
    have hdigit := length_dropWhile_le Char.isDigit cs
    have hident := length_dropWhile_le Token.isIdentContinue cs
    split at h
    · split at h
      · cases h
      · cases h; simp only [List.length_cons]; omega
    · split at h
      · cases h; simp only [List.length_cons]; omega
      · cases h
  all_goals cases h; simp only [List.length_cons]; omega

/-- Every token but the last one moves the cursor forward. -/
theorem rest_next_lt {c d : Cursor} {t : Token} (h : c.next = .ok (t, d)) (ht : t.kind ≠ .eof) :
    d.rest.length < c.rest.length :=
  Nat.lt_of_lt_of_le (rest_lexeme_lt h ht) (rest_skipTrivia_le c)

/-- The tokens from the cursor to the end of the text, or the first error. -/
def tokens (c : Cursor) : Except SyntaxError (List Token) :=
  match h : c.next with
  | .error e => .error e
  | .ok (t, d) =>
    if ht : t.kind = .eof then .ok [t]
    else
      have := rest_next_lt h ht
      do return t :: (← d.tokens)
termination_by c.rest.length

end Cursor

/-- Cuts a source text into tokens, the last one of kind `eof`. -/
def Token.read (source : String) : Except SyntaxError (List Token) :=
  (Cursor.ofString source).tokens

end LambdaLift
