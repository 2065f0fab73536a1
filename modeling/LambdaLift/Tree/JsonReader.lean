import LambdaLift.Json.Shape
import LambdaLift.Tree

/-!
# Trees from JSON

A node is an object with the keys `kind`, `text`, `span` and `children`, of which only the first has
to be there, or an array of these four in this order with any number of the last three left out. A
span is an object with the keys `start` and `end`, or an array of both. Other keys are passed over.

At most 127 brackets may be open at a time, those of values that are passed over not counted.
-/

namespace LambdaLift.Tree

open Json

/-- The number of brackets that may be open at a time. -/
def maxNesting : Nat := 127

/-- Reads the two items of a span that is written as an array. -/
def spanItems (cs : List Char) : Except Fault (Parsed Span cs) := do
  match ← slot true cs with
  | .closed _ _ => .error .mismatched
  | .item r hr =>
    let start ← offset r
    match ← slot false start.rest with
    | .closed _ _ => .error .mismatched
    | .item r' hr' =>
      let stop ← offset r'
      let close ← arrayEnd stop.rest
      return ⟨⟨start.value, stop.value⟩, close.rest, by
        have h₁ := start.rest_lt
        have h₂ := stop.rest_lt
        have h₃ := close.rest_lt
        omega⟩

/-- Reads the members of a span that is written as an object. -/
def spanMembers (start stop : Option UInt32) (first : Bool) (cs : List Char) :
    Except Fault (Parsed Span cs) := do
  let k ← key first cs
  match k.value with
  | none =>
    match start, stop with
    | some start, some stop => return k.map fun _ => ⟨start, stop⟩
    | _, _ => .error .mismatched
  | some name =>
    if name = "start" then
      if start.isSome then .error .mismatched
      else
        let sep ← colon k.rest
        let value ← offset sep.rest
        have := Nat.lt_trans value.rest_lt (Nat.lt_trans sep.rest_lt k.rest_lt)
        return (← spanMembers (some value.value) stop false value.rest).ofShorter this
    else if name = "end" then
      if stop.isSome then .error .mismatched
      else
        let sep ← colon k.rest
        let value ← offset sep.rest
        have := Nat.lt_trans value.rest_lt (Nat.lt_trans sep.rest_lt k.rest_lt)
        return (← spanMembers start (some value.value) false value.rest).ofShorter this
    else
      let sep ← colon k.rest
      let value ← skipValue sep.rest
      have := Nat.lt_trans value.rest_lt (Nat.lt_trans sep.rest_lt k.rest_lt)
      return (← spanMembers start stop false value.rest).ofShorter this
termination_by cs.length

/-- Reads a span. -/
def readSpan (depth : Nat) (cs : List Char) : Except Fault (Parsed Span cs) :=
  match h : skipSpace cs with
  | [] => .error .ended
  | c :: r =>
    have hlt := length_lt_of_skipSpace_eq_cons h
    if c = '[' then do
      let _ ← descend depth
      return (← spanItems r).ofShorter hlt
    else if c = '{' then do
      let _ ← descend depth
      return (← spanMembers none none true r).ofShorter hlt
    else .error (wrongType (c :: r))

/-- The members of a node that have been read so far. -/
structure Members where
  kind : Option String := none
  text : Option String := none
  span : Option Span := none
  children : Option (List Tree) := none

/-- The node with these members; only its kind has to be known. -/
def Members.toTree (m : Members) : Except Fault Tree :=
  match m.kind with
  | some kind => .ok ⟨kind, m.text.getD "", m.span.getD default, m.children.getD []⟩
  | none => .error .mismatched

mutual

/-- Reads a node; `depth` more brackets may be opened. -/
def readNode (depth : Nat) (cs : List Char) : Except Fault (Parsed Tree cs) :=
  match h : skipSpace cs with
  | [] => .error .ended
  | c :: r =>
    have hlt := length_lt_of_skipSpace_eq_cons h
    if c = '[' then do
      let inner ← descend depth
      return (← nodeItems inner r).ofShorter hlt
    else if c = '{' then do
      let inner ← descend depth
      return (← nodeMembers inner {} true r).ofShorter hlt
    else .error (wrongType (c :: r))
termination_by 2 * cs.length

/-- Reads the items of a node that is written as an array. -/
def nodeItems (depth : Nat) (cs : List Char) : Except Fault (Parsed Tree cs) := do
  match ← slot true cs with
  | .closed _ _ => .error .mismatched
  | .item r hr =>
    let kind ← string r
    have h₁ := Nat.lt_of_lt_of_le kind.rest_lt hr
    match ← slot false kind.rest with
    | .closed rest hrest => return ⟨leaf kind.value "" default, rest, Nat.lt_trans hrest h₁⟩
    | .item r hr =>
      let text ← string r
      have h₂ := Nat.lt_trans (Nat.lt_of_lt_of_le text.rest_lt hr) h₁
      match ← slot false text.rest with
      | .closed rest hrest =>
        return ⟨leaf kind.value text.value default, rest, Nat.lt_trans hrest h₂⟩
      | .item r hr =>
        let span ← readSpan depth r
        have h₃ := Nat.lt_trans (Nat.lt_of_lt_of_le span.rest_lt hr) h₂
        match ← slot false span.rest with
        | .closed rest hrest =>
          return ⟨leaf kind.value text.value span.value, rest, Nat.lt_trans hrest h₃⟩
        | .item r hr =>
          have h₄ := Nat.lt_of_le_of_lt hr h₃
          let children ← readChildren depth r
          let close ← arrayEnd children.rest
          return ⟨⟨kind.value, text.value, span.value, children.value⟩, close.rest,
            Nat.lt_trans close.rest_lt (Nat.lt_trans children.rest_lt h₄)⟩
termination_by 2 * cs.length

/-- Reads the members of a node that is written as an object. -/
def nodeMembers (depth : Nat) (m : Members) (first : Bool) (cs : List Char) :
    Except Fault (Parsed Tree cs) := do
  let k ← key first cs
  match k.value with
  | none =>
    let tree ← m.toTree
    return k.map fun _ => tree
  | some name =>
    if name = "kind" then
      if m.kind.isSome then .error .mismatched
      else
        let sep ← colon k.rest
        let value ← string sep.rest
        have := Nat.lt_trans value.rest_lt (Nat.lt_trans sep.rest_lt k.rest_lt)
        return (← nodeMembers depth { m with kind := value.value } false value.rest).ofShorter
          this
    else if name = "text" then
      if m.text.isSome then .error .mismatched
      else
        let sep ← colon k.rest
        let value ← string sep.rest
        have := Nat.lt_trans value.rest_lt (Nat.lt_trans sep.rest_lt k.rest_lt)
        return (← nodeMembers depth { m with text := value.value } false value.rest).ofShorter
          this
    else if name = "span" then
      if m.span.isSome then .error .mismatched
      else
        let sep ← colon k.rest
        let value ← readSpan depth sep.rest
        have := Nat.lt_trans value.rest_lt (Nat.lt_trans sep.rest_lt k.rest_lt)
        return (← nodeMembers depth { m with span := value.value } false value.rest).ofShorter
          this
    else if name = "children" then
      if m.children.isSome then .error .mismatched
      else
        let sep ← colon k.rest
        have hsep := Nat.lt_trans sep.rest_lt k.rest_lt
        let value ← readChildren depth sep.rest
        have := Nat.lt_trans value.rest_lt hsep
        return (← nodeMembers depth { m with children := value.value } false value.rest).ofShorter
          this
    else
      let sep ← colon k.rest
      let value ← skipValue sep.rest
      have := Nat.lt_trans value.rest_lt (Nat.lt_trans sep.rest_lt k.rest_lt)
      return (← nodeMembers depth m false value.rest).ofShorter this
termination_by 2 * cs.length

/-- Reads an array of nodes. -/
def readChildren (depth : Nat) (cs : List Char) : Except Fault (Parsed (List Tree) cs) :=
  match h : skipSpace cs with
  | [] => .error .ended
  | c :: r =>
    have hlt := length_lt_of_skipSpace_eq_cons h
    if c = '[' then do
      let inner ← descend depth
      return (← childItems inner true r).ofShorter hlt
    else .error (wrongType (c :: r))
termination_by 2 * cs.length

/-- Reads the items of an array of nodes. -/
def childItems (depth : Nat) (first : Bool) (cs : List Char) :
    Except Fault (Parsed (List Tree) cs) := do
  match ← slot first cs with
  | .closed rest hrest => return ⟨[], rest, hrest⟩
  | .item r hr =>
    let child ← readNode depth r
    have hlt := Nat.lt_of_lt_of_le child.rest_lt hr
    let others ← childItems depth false child.rest
    return ⟨child.value :: others.value, others.rest, Nat.lt_trans others.rest_lt hlt⟩
termination_by 2 * cs.length + 1

end

/-- The tree that a JSON text describes. -/
def ofJson (source : String) : Except Fault Tree := do
  let tree ← readNode maxNesting source.toList
  if (skipSpace tree.rest).isEmpty then return tree.value else .error .malformed

end LambdaLift.Tree
