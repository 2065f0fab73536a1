import LambdaLift.Json.Number
import LambdaLift.Json.Text

/-!
# Values that are not used

A value that nobody asks for is passed over: it has to be JSON, but it may nest as deeply as it
likes, its numbers may have any size and its strings may hold halves of surrogate pairs.
-/

namespace LambdaLift.Json

/-- Passes over the colon between a key and its value. -/
def colon (cs : List Char) : Except Fault (Parsed Unit cs) :=
  match h : skipSpace cs with
  | [] => .error .ended
  | c :: r =>
    if c = ':' then .ok ⟨(), r, length_lt_of_skipSpace_eq_cons h⟩ else .error .malformed

mutual

/-- Passes over one value. -/
def skipValue (cs : List Char) : Except Fault (Parsed Unit cs) :=
  match h : skipSpace cs with
  | [] => .error .ended
  | c :: r =>
    have hlt := length_lt_of_skipSpace_eq_cons h
    if c = '[' then do return (← skipItems true r).ofShorter hlt
    else if c = '{' then do return (← skipMembers true r).ofShorter hlt
    else if c = '"' then do return (← skipText r).ofShorter hlt
    else if c = 'n' then do
      let more ← word ['u', 'l', 'l'] r
      return more.ofShorter hlt
    else if c = 't' then do
      let more ← word ['r', 'u', 'e'] r
      return more.ofShorter hlt
    else if c = 'f' then do
      let more ← word ['a', 'l', 's', 'e'] r
      return more.ofShorter hlt
    else if c = '-' ∨ c.isDigit then do
      return ((← number false (c :: r)).map fun _ => ()).ofSuffix hlt
    else .error .malformed
termination_by 2 * cs.length

/-- Passes over the items of an array up to its closing bracket. -/
def skipItems (first : Bool) (cs : List Char) : Except Fault (Parsed Unit cs) :=
  match h : skipSpace cs with
  | [] => .error .ended
  | c :: r =>
    have hlt := length_lt_of_skipSpace_eq_cons h
    if c = ']' then .ok ⟨(), r, hlt⟩
    else if first then do
      let item ← skipValue cs
      have := item.rest_lt
      return (← skipItems false item.rest).ofShorter item.rest_lt
    else if c = ',' then do
      let item ← skipValue r
      have := item.rest_lt
      return (← skipItems false item.rest).ofShorter (Nat.lt_trans item.rest_lt hlt)
    else .error .malformed
termination_by 2 * cs.length + 1

/-- Passes over the members of an object up to its closing brace. -/
def skipMembers (first : Bool) (cs : List Char) : Except Fault (Parsed Unit cs) :=
  match h : skipSpace cs with
  | [] => .error .ended
  | c :: r =>
    have hlt := length_lt_of_skipSpace_eq_cons h
    if c = '}' then .ok ⟨(), r, hlt⟩
    else if first then
      if c = '"' then do
        let member ← skipMember r
        have := member.rest_lt
        return (← skipMembers false member.rest).ofShorter (Nat.lt_trans member.rest_lt hlt)
      else .error .malformed
    else if c = ',' then
      match h' : skipSpace r with
      | [] => .error .ended
      | c' :: r' =>
        have hlt' := Nat.lt_trans (length_lt_of_skipSpace_eq_cons h') hlt
        if c' = '"' then do
          let member ← skipMember r'
          have := member.rest_lt
          return (← skipMembers false member.rest).ofShorter (Nat.lt_trans member.rest_lt hlt')
        else .error .malformed
    else .error .malformed
termination_by 2 * cs.length

/-- Passes over one member of an object, from behind the opening quote of its key. -/
def skipMember (cs : List Char) : Except Fault (Parsed Unit cs) := do
  let key ← skipText cs
  let sep ← colon key.rest
  have := Nat.lt_trans sep.rest_lt key.rest_lt
  return (← skipValue sep.rest).ofShorter this
termination_by 2 * cs.length

end

end LambdaLift.Json
