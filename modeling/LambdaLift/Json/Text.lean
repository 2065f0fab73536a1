import LambdaLift.Json.Fault
import LambdaLift.Text.ByteLength

/-!
# JSON strings

`quote` writes a string, `text` reads one back, and `skipText` passes over one. Reading refuses an
escape that stands for half of a surrogate pair; passing over a string does not look at what its
escapes mean.
-/

namespace LambdaLift.Json

/-- The lower-case hexadecimal digit of a number below sixteen. -/
def hexDigit (n : Nat) : Char :=
  if n < 10 then Char.ofNat (48 + n) else Char.ofNat (87 + n)

/-- The value of a hexadecimal digit. -/
def hexValue? (c : Char) : Option Nat :=
  if '0' ≤ c ∧ c ≤ '9' then some (c.toNat - 48)
  else if 'a' ≤ c ∧ c ≤ 'f' then some (c.toNat - 87)
  else if 'A' ≤ c ∧ c ≤ 'F' then some (c.toNat - 55)
  else none

/-- A character as it is written inside a string. Only the quote, the backslash and the characters
below the space are escaped, with a one-letter escape where JSON has one. -/
def escape (c : Char) : List Char :=
  if c = '"' then ['\\', '"']
  else if c = '\\' then ['\\', '\\']
  else if c = '\x08' then ['\\', 'b']
  else if c = '\x0c' then ['\\', 'f']
  else if c = '\n' then ['\\', 'n']
  else if c = '\r' then ['\\', 'r']
  else if c = '\t' then ['\\', 't']
  else if c < ' ' then ['\\', 'u', '0', '0', hexDigit (c.toNat / 16), hexDigit (c.toNat % 16)]
  else [c]

/-- A string between quotes. -/
def quote (s : String) : String :=
  String.ofList ('"' :: (s.toList.flatMap escape ++ ['"']))

/-- The character that a one-letter escape stands for. -/
def letterEscape? (c : Char) : Option Char :=
  match c with
  | '"' => some '"'
  | '\\' => some '\\'
  | '/' => some '/'
  | 'b' => some '\x08'
  | 'f' => some '\x0c'
  | 'n' => some '\n'
  | 'r' => some '\r'
  | 't' => some '\t'
  | _ => none

/-- Reads four hexadecimal digits. The text counts as ended when fewer than four bytes are left,
whatever they are. -/
def hexQuad (cs : List Char) : Except Fault (Parsed Nat cs) :=
  match cs with
  | a :: b :: c :: d :: r =>
    match hexValue? a, hexValue? b, hexValue? c, hexValue? d with
    | some a, some b, some c, some d =>
      .ok ⟨((a * 16 + b) * 16 + c) * 16 + d, r, by simp only [List.length_cons]; omega⟩
    | _, _, _, _ => .error .malformed
  | cs => if Text.byteLength cs < 4 then .error .ended else .error .malformed

/-- Whether a code unit is the first half of a surrogate pair. -/
def isLeadingSurrogate (n : Nat) : Bool := 0xD800 ≤ n && n ≤ 0xDBFF

/-- Whether a code unit is the second half of a surrogate pair. -/
def isTrailingSurrogate (n : Nat) : Bool := 0xDC00 ≤ n && n ≤ 0xDFFF

/-- Reads what follows `\u`: one code unit, or a surrogate pair written as two escapes. -/
def unicodeEscape (cs : List Char) : Except Fault (Parsed Char cs) := do
  let first ← hexQuad cs
  if isTrailingSurrogate first.value then .error .malformed
  else if isLeadingSurrogate first.value then
    match hrest : first.rest with
    | [] => .error .ended
    | ['\\'] => .error .ended
    | '\\' :: 'u' :: r =>
      let second ← hexQuad r
      if isTrailingSurrogate second.value then
        let code := 0x10000 + (first.value - 0xD800) * 0x400 + (second.value - 0xDC00)
        return ⟨Char.ofNat code, second.rest, by
          have hs := second.rest_lt
          have hf := first.rest_lt
          simp only [hrest, List.length_cons] at hf
          omega⟩
      else .error .malformed
    | _ => .error .malformed
  else return first.map Char.ofNat

/-- Reads what follows a backslash. -/
def unescape (cs : List Char) : Except Fault (Parsed Char cs) :=
  match cs with
  | [] => .error .ended
  | 'u' :: r => do return (← unicodeEscape r).behind
  | e :: _ =>
    match letterEscape? e with
    | some c => .ok (.first c)
    | none => .error .malformed

/-- Reads the rest of a string after its opening quote. -/
def text (cs : List Char) : Except Fault (Parsed (List Char) cs) :=
  match cs with
  | [] => .error .ended
  | '"' :: _ => .ok (.first [])
  | '\\' :: r => do
    let c ← unescape r
    have := c.rest_lt
    let more ← text c.rest
    return ⟨c.value :: more.value, more.rest,
      Nat.lt_succ_of_lt (Nat.lt_trans more.rest_lt c.rest_lt)⟩
  | c :: r =>
    if c < ' ' then .error .malformed
    else do
      let more ← text r
      return ⟨c :: more.value, more.rest, Nat.lt_succ_of_lt more.rest_lt⟩
termination_by cs.length

/-- Passes over what follows a backslash. -/
def skipEscape (cs : List Char) : Except Fault (Parsed Unit cs) :=
  match cs with
  | [] => .error .ended
  | 'u' :: r => do return ((← hexQuad r).map fun _ => ()).behind
  | e :: _ =>
    if (letterEscape? e).isSome then .ok (.first ()) else .error .malformed

/-- Passes over the rest of a string after its opening quote. -/
def skipText (cs : List Char) : Except Fault (Parsed Unit cs) :=
  match cs with
  | [] => .error .ended
  | '"' :: _ => .ok (.first ())
  | '\\' :: r => do
    let c ← skipEscape r
    have := c.rest_lt
    let more ← skipText c.rest
    return ⟨(), more.rest, Nat.lt_succ_of_lt (Nat.lt_trans more.rest_lt c.rest_lt)⟩
  | c :: r =>
    if c < ' ' then .error .malformed
    else do return (← skipText r).behind
termination_by cs.length

end LambdaLift.Json
