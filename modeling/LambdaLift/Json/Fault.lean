import LambdaLift.Parsed

/-!
# Reading JSON

JSON texts are read from left to right and reading stops at the first fault, so which of several
faults is reported depends only on the part of the text up to it.
-/

namespace LambdaLift.Json

/-- Why a JSON text could not be read. -/
inductive Fault where
  /-- The text ends too early. -/
  | ended
  /-- The text is not JSON, nests too deeply, or holds a number that no double can hold. -/
  | malformed
  /-- The text is JSON as far as it was read, but not of the shape asked for. -/
  | mismatched
deriving DecidableEq, Repr

/-- What is wrong with the text. -/
def Fault.message : Fault → String
  | ended => "unexpected end of text"
  | malformed => "not valid JSON"
  | mismatched => "not the shape of a tree"

/-- The four blank characters of JSON. -/
def isSpace (c : Char) : Bool := c == ' ' || c == '\n' || c == '\t' || c == '\r'

/-- Drops blank characters. -/
def skipSpace (cs : List Char) : List Char := cs.dropWhile isSpace

theorem length_skipSpace_le (cs : List Char) : (skipSpace cs).length ≤ cs.length :=
  length_dropWhile_le isSpace cs

theorem length_lt_of_skipSpace_eq_cons {cs r : List Char} {c : Char} (h : skipSpace cs = c :: r) :
    r.length < cs.length := by
  have := length_skipSpace_le cs
  rw [h] at this
  exact this

/-- Reads the characters of a fixed word. -/
def word : List Char → (cs : List Char) → Except Fault (MaybeParsed Unit cs)
  | [], _ => .ok (.nothing ())
  | _ :: _, [] => .error .ended
  | w :: ws, c :: cs =>
    if c = w then do
      let more ← word ws cs
      return ⟨(), more.rest, Nat.le_succ_of_le more.rest_le⟩
    else .error .malformed

end LambdaLift.Json
