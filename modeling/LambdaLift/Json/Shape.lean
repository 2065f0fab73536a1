import LambdaLift.Json.Skip

/-!
# Values of a given shape

Readers for values whose type is known beforehand, and for the steps through an array or an object.
A value of another type is a mismatch; for a string, a number or a word the mismatch is found only
when the whole value has been read, for an array or an object at its opening bracket.
-/

namespace LambdaLift.Json

/-- The fault of a value that has the wrong type. -/
def wrongType (cs : List Char) : Fault :=
  let after {α : Type} (read : Except Fault α) : Fault :=
    match read with
    | .error fault => fault
    | .ok _ => .mismatched
  match cs with
  | [] => .ended
  | c :: r =>
    if c = '[' ∨ c = '{' then .mismatched
    else if c = '"' then after (text r)
    else if c = 'n' then after (word ['u', 'l', 'l'] r)
    else if c = 't' then after (word ['r', 'u', 'e'] r)
    else if c = 'f' then after (word ['a', 'l', 's', 'e'] r)
    else if c = '-' ∨ c.isDigit then
      match number true (c :: r) with
      | .error fault => fault
      | .ok n => if n.value.inRange then .mismatched else .malformed
    else .malformed

/-- Reads a string. -/
def string (cs : List Char) : Except Fault (Parsed String cs) :=
  match h : skipSpace cs with
  | [] => .error .ended
  | c :: r =>
    if c = '"' then do
      return ((← text r).map String.ofList).ofShorter (length_lt_of_skipSpace_eq_cons h)
    else .error (wrongType (c :: r))

/-- Reads a natural number below `2 ^ 32`. -/
def offset (cs : List Char) : Except Fault (Parsed UInt32 cs) :=
  match h : skipSpace cs with
  | [] => .error .ended
  | c :: r =>
    if c = '-' ∨ c.isDigit then do
      let n ← number true (c :: r)
      if n.value.inRange then
        match n.value.natural? with
        | some k =>
          if k < Nat.pow 2 32 then
            return (n.map fun _ => .ofNat k).ofSuffix (length_lt_of_skipSpace_eq_cons h)
          else .error .mismatched
        | none => .error .mismatched
      else .error .malformed
    else .error (wrongType (c :: r))

/-- Reads the next key of an object, or its closing brace. -/
def key (first : Bool) (cs : List Char) : Except Fault (Parsed (Option String) cs) :=
  match h : skipSpace cs with
  | [] => .error .ended
  | c :: r =>
    have hlt := length_lt_of_skipSpace_eq_cons h
    if c = '}' then .ok ⟨none, r, hlt⟩
    else if first then
      if c = '"' then do
        return ((← text r).map fun k => some (String.ofList k)).ofShorter hlt
      else .error .malformed
    else if c = ',' then
      match h' : skipSpace r with
      | [] => .error .ended
      | c' :: r' =>
        if c' = '"' then do
          let k ← text r'
          return ((k.map fun k => some (String.ofList k)).ofShorter
            (length_lt_of_skipSpace_eq_cons h')).ofShorter hlt
        else .error .malformed
    else .error .malformed

/-- What stands next in an array: its closing bracket, or an item. -/
inductive Slot (cs : List Char) where
  | closed (rest : List Char) (rest_lt : rest.length < cs.length)
  | item (rest : List Char) (rest_le : rest.length ≤ cs.length)

/-- Moves to the next item of an array, past the comma before it, or past the closing bracket. -/
def slot (first : Bool) (cs : List Char) : Except Fault (Slot cs) :=
  match h : skipSpace cs with
  | [] => .error .ended
  | c :: r =>
    have hlt := length_lt_of_skipSpace_eq_cons h
    if c = ']' then .ok (.closed r hlt)
    else if first then .ok (.item (c :: r) hlt)
    else if c = ',' then
      match h' : skipSpace r with
      | [] => .error .ended
      | c' :: r' =>
        if c' = ']' then .error .malformed
        else .ok (.item (c' :: r')
          (Nat.le_of_lt (Nat.lt_of_le_of_lt (length_lt_of_skipSpace_eq_cons h') hlt)))
    else .error .malformed

/-- Reads the closing bracket of an array all of whose items have been read. -/
def arrayEnd (cs : List Char) : Except Fault (Parsed Unit cs) :=
  match h : skipSpace cs with
  | [] => .error .ended
  | c :: r =>
    if c = ']' then .ok ⟨(), r, length_lt_of_skipSpace_eq_cons h⟩ else .error .malformed

/-- The brackets that may still be opened inside the present one, unless the limit is reached. -/
def descend : Nat → Except Fault Nat
  | 0 => .error .malformed
  | depth + 1 => .ok depth

end LambdaLift.Json
