import LambdaLift.Text.ByteLength

/-!
# Spans

A span is a range of byte offsets into a source text. Offsets are 32-bit words; a `Nat` offset is
taken modulo `2 ^ 32`, which is exact for every text shorter than that. In a longer text a span can
lead to another place than the one it was made for, or to none.
-/

namespace LambdaLift

/-- The bytes from `start` up to, but not including, `stop`. -/
structure Span where
  start : UInt32
  stop : UInt32
deriving DecidableEq, Repr, Inhabited

namespace Span

/-- The span between two offsets. -/
def ofOffsets (start stop : Nat) : Span := ⟨.ofNat start, .ofNat stop⟩

/-- The empty span at one offset. -/
def point (offset : UInt32) : Span := ⟨offset, offset⟩

/-- The number of bytes covered; a span that stops before it starts has none. -/
def length? (s : Span) : Option UInt32 :=
  if s.start ≤ s.stop then some (s.stop - s.start) else none

/-- Whether the span stops where it starts. -/
def isEmpty (s : Span) : Bool := s.start == s.stop

/-- The smallest span around two others. -/
def cover (s t : Span) : Span := ⟨min s.start t.start, max s.stop t.stop⟩

/-- The part of a source text that the span leads to. There is none if the span stops before it
starts or behind the end of the text, or if one of its ends lies inside a character. -/
def slice? (s : Span) (source : String) : Option String :=
  if s.start ≤ s.stop then do
    let (_, rest) ← Text.splitBytes? s.start.toNat source.toList
    let (text, _) ← Text.splitBytes? (s.stop.toNat - s.start.toNat) rest
    return String.ofList text
  else none

@[simp] theorem length?_point (offset : UInt32) : (point offset).length? = some 0 := by
  simp [length?, point]

end Span

end LambdaLift
