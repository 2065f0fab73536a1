import LambdaLift.Tree

/-!
# Trees as S-expressions

A node is written as its tag, its text unless that is empty, and its children, separated by blanks
and enclosed in parentheses: `(app (sym f) (int 1))`.
-/

namespace LambdaLift.Tree

mutual

/-- The S-expression of a tree. -/
def toSExpr : Tree → String
  | ⟨kind, text, _, children⟩ =>
    "(" ++ kind ++ (if text.isEmpty then "" else " " ++ text) ++ toSExprs children ++ ")"

/-- The S-expressions of a list of trees, a blank before each. -/
def toSExprs : List Tree → String
  | [] => ""
  | t :: ts => " " ++ toSExpr t ++ toSExprs ts

end

end LambdaLift.Tree
