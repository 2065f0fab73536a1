import LambdaLift.Json.Text
import LambdaLift.Tree

/-!
# Trees as JSON

A tree is written over several lines, two more blanks of indentation for each bracket, all four
members of a node in a fixed order.
-/

namespace LambdaLift.Tree

/-- A new line at a given number of open brackets. -/
def newline (level : Nat) : String := "\n" ++ String.ofList (List.replicate (2 * level) ' ')

/-- A span as JSON, inside `level` open brackets. -/
def spanToJson (level : Nat) (s : Span) : String :=
  r"{" ++ newline (level + 1) ++ "\"start\": " ++ toString s.start.toNat ++ "," ++
    newline (level + 1) ++ "\"end\": " ++ toString s.stop.toNat ++ newline level ++ r"}"

mutual

/-- A tree as JSON, inside `level` open brackets. -/
def toJsonAt (level : Nat) : Tree → String
  | ⟨kind, text, span, children⟩ =>
    r"{" ++ newline (level + 1) ++ "\"kind\": " ++ Json.quote kind ++ "," ++
      newline (level + 1) ++ "\"text\": " ++ Json.quote text ++ "," ++
      newline (level + 1) ++ "\"span\": " ++ spanToJson (level + 1) span ++ "," ++
      newline (level + 1) ++ "\"children\": " ++ childrenToJson (level + 1) children ++
      newline level ++ r"}"

/-- A list of trees as JSON. -/
def childrenToJson (level : Nat) : List Tree → String
  | [] => "[]"
  | t :: ts => "[" ++ newline (level + 1) ++ toJsonAt (level + 1) t ++ othersToJson level ts

/-- The trees after the first one of a list, and the closing bracket. -/
def othersToJson (level : Nat) : List Tree → String
  | [] => newline level ++ "]"
  | t :: ts => "," ++ newline (level + 1) ++ toJsonAt (level + 1) t ++ othersToJson level ts

end

/-- A tree as JSON text. -/
def toJson (t : Tree) : String := toJsonAt 0 t

end LambdaLift.Tree
