import LambdaLift.Json.Fault

/-!
# JSON numbers

A number is read as its digits. Whether a double can hold it is decided from the digits alone: the
value is the product of a significand of at most 64 bits and a power of ten, both rounded to 53
bits.
-/

namespace LambdaLift.Json

/-- A JSON number as it is written. -/
structure Number where
  negative : Bool
  whole : List Char
  /-- The digits after the point, empty when there is no point. -/
  fraction : List Char
  /-- The power of ten written after `e`, where there is one. -/
  exponent : Option Int
deriving DecidableEq, Repr

/-- The value of a run of decimal digits. -/
def digitsValue (ds : List Char) : Nat := ds.foldl (fun n d => n * 10 + (d.toNat - 48)) 0

/-- Appends decimal digits to a significand as long as it fits 64 bits, and counts the digits that
were left over. -/
def accumulate : Nat → List Char → Nat × Nat
  | n, [] => (n, 0)
  | n, d :: ds =>
    let m := n * 10 + (d.toNat - 48)
    if m < Nat.pow 2 64 then accumulate m ds else (n, ds.length + 1)

/-- Rounds to 53 significant bits, a half going to the even neighbour. -/
def roundToDouble (n : Nat) : Nat :=
  if n < Nat.pow 2 53 then n
  else
    let unit := Nat.pow 2 (n.log2 - 52)
    let q := n / unit
    let r := n % unit
    if 2 * r < unit ∨ (2 * r = unit ∧ q % 2 = 0) then q * unit else (q + 1) * unit

/-- The least integer that rounds to no finite double. -/
def doubleLimit : Nat := Nat.pow 2 1024 - Nat.pow 2 970

namespace Number

/-- The significand, of at most 64 bits, and the power of ten that it is multiplied by. Digits that
do not fit count as zeros before the point and are dropped after it. -/
def scaled (n : Number) : Nat × Int :=
  let (w, left) := accumulate 0 n.whole
  let (f, dropped) := accumulate w n.fraction
  (f, left - (n.fraction.length - dropped : Nat) + n.exponent.getD 0)

/-- Whether the number is within the range of doubles. -/
def inRange (n : Number) : Bool :=
  let (s, e) := n.scaled
  s == 0 || e < 0 || (e ≤ 308 && roundToDouble s * roundToDouble (Nat.pow 10 e.toNat) < doubleLimit)

/-- The value of a number that is written with digits alone. -/
def natural? (n : Number) : Option Nat :=
  if n.negative || !n.fraction.isEmpty || n.exponent.isSome then none
  else some (digitsValue n.whole)

end Number

/-- The fault of a number that lacks a digit before `rest`: where numbers are used, the end of the
text is told apart from a wrong character. -/
def missingDigit (used : Bool) (rest : List Char) : Fault :=
  if used && rest.isEmpty then .ended else .malformed

/-- Reads at least one digit. -/
def digits (used : Bool) (cs : List Char) : Except Fault (Parsed (List Char) cs) :=
  match cs with
  | [] => .error (missingDigit used [])
  | d :: r =>
    if d.isDigit then
      .ok ⟨d :: r.takeWhile Char.isDigit, r.dropWhile Char.isDigit,
        Nat.lt_succ_of_le (length_dropWhile_le _ r)⟩
    else .error (missingDigit used (d :: r))

/-- Reads the part after a point, if there is one. -/
def fractionPart (used : Bool) (cs : List Char) : Except Fault (MaybeParsed (List Char) cs) :=
  match cs with
  | '.' :: r => do
    let ds ← digits used r
    return ⟨ds.value, ds.rest, Nat.le_succ_of_le (Nat.le_of_lt ds.rest_lt)⟩
  | _ => .ok (.nothing [])

/-- Reads the power of ten, if there is one. -/
def exponentPart (used : Bool) (cs : List Char) : Except Fault (MaybeParsed (Option Int) cs) :=
  match cs with
  | [] => .ok (.nothing none)
  | e :: r =>
    if e = 'e' ∨ e = 'E' then
      match r with
      | '-' :: r' => do
        let ds ← digits used r'
        return ⟨some (-(digitsValue ds.value : Int)), ds.rest,
          Nat.le_of_lt (Nat.lt_trans ds.rest_lt (Nat.lt_add_of_pos_right (Nat.succ_pos 1)))⟩
      | '+' :: r' => do
        let ds ← digits used r'
        return ⟨some (digitsValue ds.value : Int), ds.rest,
          Nat.le_of_lt (Nat.lt_trans ds.rest_lt (Nat.lt_add_of_pos_right (Nat.succ_pos 1)))⟩
      | r => do
        let ds ← digits used r
        return ⟨some (digitsValue ds.value : Int), ds.rest,
          Nat.le_succ_of_le (Nat.le_of_lt ds.rest_lt)⟩
    else .ok (.nothing none)

/-- Reads the digits before the point: a zero alone, or digits that start with another one. -/
def wholePart (used : Bool) (cs : List Char) : Except Fault (Parsed (List Char) cs) :=
  match cs with
  | '0' :: r =>
    if r.head?.any Char.isDigit then .error .malformed
    else .ok (.first ['0'])
  | cs => digits used cs

/-- Reads a number without its sign. -/
def unsigned (used negative : Bool) (cs : List Char) : Except Fault (Parsed Number cs) := do
  let w ← wholePart used cs
  let f ← fractionPart used w.rest
  let e ← exponentPart used f.rest
  return ⟨⟨negative, w.value, f.value, e.value⟩, e.rest,
    Nat.lt_of_le_of_lt (Nat.le_trans e.rest_le f.rest_le) w.rest_lt⟩

/-- Reads a number; `used` tells whether its value is asked for. -/
def number (used : Bool) (cs : List Char) : Except Fault (Parsed Number cs) :=
  match cs with
  | '-' :: r => do return (← unsigned used true r).behind
  | cs => unsigned used false cs

end LambdaLift.Json
