/-!
# Edit distance

The least number of single-character insertions, deletions and substitutions between two texts,
computed row by row: after a part of the source has been read, the row holds its distances to every
initial part of the target.
-/

namespace LambdaLift.EditDistance

/-- The entries of the next row after its first. `row` starts with the old entry diagonally above
the one that is computed next, and `left` is the new entry before it. -/
def extendRow (c : Char) : List Char → List Nat → Nat → List Nat
  | d :: target, diagonal :: above :: row, left =>
    let entry := min (min (above + 1) (left + 1)) (diagonal + if c = d then 0 else 1)
    entry :: extendRow c target (above :: row) entry
  | _, _, _ => []

/-- The row after one more character of the source. -/
def nextRow (target : List Char) (row : List Nat) (c : Char) : List Nat :=
  match row with
  | [] => []
  | first :: _ => (first + 1) :: extendRow c target row (first + 1)

/-- The distances from the source to every initial part of the target. -/
def lastRow (source target : List Char) : List Nat :=
  source.foldl (nextRow target) (List.range (target.length + 1))

/-- The edit distance between two texts. -/
def distance (source target : String) : Nat :=
  (lastRow source.toList target.toList).getLast?.getD 0

end LambdaLift.EditDistance
