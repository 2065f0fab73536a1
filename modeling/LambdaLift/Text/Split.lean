/-!
# Cutting texts at a character
-/

namespace LambdaLift.Text

/-- The parts of a text between the places where `sep` stands; there is always at least one. -/
def split (sep : Char) : List Char → List (List Char)
  | [] => [[]]
  | c :: cs =>
    if c = sep then [] :: split sep cs
    else
      match split sep cs with
      | [] => [[c]]
      | part :: parts => (c :: part) :: parts

/-- The lines of a text. -/
def lines (s : String) : List String := (split '\n' s.toList).map String.ofList

end LambdaLift.Text
