import LambdaLift.Toml.Value

/-!
# Plain TOML values

Booleans and numbers, which are written without quotes or brackets. Digits may be grouped by
underscores, each between two digits. Integers fit 64 bits with sign.
-/

namespace LambdaLift.Toml

/-- Reads grouped digits and drops the underscores. -/
def groupedDigits (isDigit : Char → Bool) : List Char → Option (List Char)
  | [] => none
  | [c] => if isDigit c then some [c] else none
  | c :: '_' :: r => if isDigit c then (groupedDigits isDigit r).map (c :: ·) else none
  | c :: r => if isDigit c then (groupedDigits isDigit r).map (c :: ·) else none

/-- The value of a digit in a base up to sixteen. -/
def digitValue (c : Char) : Nat :=
  if c.isDigit then c.toNat - 48
  else if c.isUpper then c.toNat - 55
  else c.toNat - 87

def isHexDigit (c : Char) : Bool :=
  c.isDigit || ('a' ≤ c && c ≤ 'f') || ('A' ≤ c && c ≤ 'F')

def isOctalDigit (c : Char) : Bool := '0' ≤ c && c ≤ '7'

def isBinaryDigit (c : Char) : Bool := c == '0' || c == '1'

/-- The number that digits stand for in a base. -/
def ofDigits (base : Nat) (ds : List Char) : Nat := ds.foldl (fun n d => n * base + digitValue d) 0

/-- A sign, which may be left out, and what follows it. -/
def signed : List Char → Bool × List Char
  | '-' :: r => (true, r)
  | '+' :: r => (false, r)
  | r => (false, r)

/-- Decimal digits without a superfluous zero in front. -/
def decimalDigits (cs : List Char) : Option (List Char) := do
  let ds ← groupedDigits Char.isDigit cs
  if ds.length > 1 && ds.head? == some '0' then none else some ds

/-- An integer if it fits 64 bits with sign. -/
def inWord (n : Int) : Option Int := if -Int.pow 2 63 ≤ n ∧ n < Int.pow 2 63 then some n else none

/-- An integer: decimal with an optional sign, or hexadecimal, octal or binary without one. -/
def integer? (cs : List Char) : Option Int :=
  match cs with
  | '0' :: 'x' :: r => do inWord (ofDigits 16 (← groupedDigits isHexDigit r))
  | '0' :: 'o' :: r => do inWord (ofDigits 8 (← groupedDigits isOctalDigit r))
  | '0' :: 'b' :: r => do inWord (ofDigits 2 (← groupedDigits isBinaryDigit r))
  | cs => do
    let (negative, r) := signed cs
    let n := ofDigits 10 (← decimalDigits r)
    inWord (if negative then -n else n)

/-- Whether the characters are a floating-point number: an integer with a fraction, an exponent or
both, an infinity or no number at all. -/
def isFloat (cs : List Char) : Bool :=
  let r := (signed cs).2
  if r = ['i', 'n', 'f'] ∨ r = ['n', 'a', 'n'] then true
  else
    let isExponentMark (c : Char) : Bool := c == 'e' || c == 'E'
    let mantissa := r.takeWhile (!isExponentMark ·)
    let exponent := (r.dropWhile (!isExponentMark ·)).tail?
    let whole := mantissa.takeWhile (· != '.')
    let fraction := (mantissa.dropWhile (· != '.')).tail?
    (decimalDigits whole).isSome && (exponent.isSome || fraction.isSome) &&
      fraction.all (fun ds => (groupedDigits Char.isDigit ds).isSome) &&
      exponent.all (fun ds => (groupedDigits Char.isDigit (signed ds).2).isSome)

/-- The value of a word without quotes or brackets. -/
def scalar? (cs : List Char) : Option Value :=
  if cs = ['t', 'r', 'u', 'e'] then some (.boolean true)
  else if cs = ['f', 'a', 'l', 's', 'e'] then some (.boolean false)
  else
    match integer? cs with
    | some n => some (.integer n)
    | none => if isFloat cs then some (.float (String.ofList cs)) else none

end LambdaLift.Toml
