import LambdaLift.Span

/-!
# Parse trees

A parse tree is a tagged node with a text, a span and children. Nothing about it is checked: a tag
may be any string, and what a tag promises about the node is decided where trees become terms.
-/

namespace LambdaLift

/-- A node of a parse tree. Leaves carry the text of their token, inner nodes the empty text. -/
structure Tree where
  kind : String
  text : String
  span : Span
  children : List Tree
deriving Inhabited, Repr

namespace Tree

/-- The tag of a module, whose children are its expressions. -/
def moduleKind : String := "mod"

/-- The tag of a symbol. -/
def symbolKind : String := "sym"

/-- The tag of a decimal integer. -/
def integerKind : String := "int"

/-- The tag of a lambda, whose children are its body and then its parameters. -/
def lambdaKind : String := "abs"

/-- The tag of an application, whose children are the callee and then the arguments. -/
def applyKind : String := "app"

/-- The tag of a block, whose children are its expressions. -/
def blockKind : String := "blk"

/-- The tag of an assignment, whose children are the target and the value. -/
def assignKind : String := "let"

/-- A node without children. -/
def leaf (kind text : String) (span : Span) : Tree := ⟨kind, text, span, []⟩

/-- A node without text. -/
def branch (kind : String) (span : Span) (children : List Tree) : Tree := ⟨kind, "", span, children⟩

end Tree

end LambdaLift
