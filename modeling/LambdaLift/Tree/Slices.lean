import LambdaLift.Tree.Parser

/-!
# Trees of source texts by slices

Beside its kind a token needs no more than its span: its text is the slice of the source that the
span leads to. In a source of `2 ^ 32` bytes or more the spans wrap around, and then the slice need
not be the text that the token was read from. Where there is no slice at all, reading breaks off and
returns nothing.
-/

namespace LambdaLift.Tree

/-- Why reading by slices comes to no tree. -/
inductive Stop where
  /-- An error that is returned. -/
  | error (error : SyntaxError)
  /-- The text of a token is needed, and its span leads to no slice of the source. -/
  | noSlice (span : Span)

/-- What is returned, if reading does not break off. -/
def Stop.returned? {α : Type} : Except Stop α → Option (Except SyntaxError α)
  | .ok a => some (.ok a)
  | .error (.error e) => some (.error e)
  | .error (.noSlice _) => none

/-- Each token has the text that its span leads to. -/
def Access.slices (source : String) : Access Stop where
  text t :=
    match t.span.slice? source with
    | some text => .ok text
    | none => .error (.noSlice t.span)
  report := .error

/-- The parse tree of a source text or its first error, if reading by slices does not break off. -/
def ofSlices (source : String) : Option (Except SyntaxError Tree) :=
  Stop.returned? do
    let tokens ← (Token.read source).mapError .error
    let trees ← (Access.slices source).expressions tokens
    return branch moduleKind (.ofOffsets 0 (Text.byteLength source.toList)) trees

/-- What is reported about a source text, if reading by slices does not break off. -/
def parseSlices (source : String) : Option ParseResult := (ofSlices source).map .ofExcept

end LambdaLift.Tree
