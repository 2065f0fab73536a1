import LambdaLift.Term

/-!
# Terms of parse trees

A parse tree becomes a term node by node, parents checked before their children and children from
left to right, so the first ill-formed node in this order decides the error. Spans, the texts of
inner nodes and whatever stands below a symbol or an integer are forgotten.
-/

namespace LambdaLift

/-- How many children a node must have. -/
inductive Arity where
  | atLeastOne
  | exactlyTwo
deriving DecidableEq, Repr

def Arity.description : Arity → String
  | atLeastOne => "at least 1"
  | exactlyTwo => "exactly 2"

/-- Why a parse tree is not a term. -/
inductive ShapeError where
  /-- A node has a tag that no kind of term has. -/
  | unsupportedKind (kind : String) (span : Span)
  /-- The text of an integer is not a non-empty run of digits. -/
  | malformedInteger (text : String) (span : Span)
  /-- A node has a number of children that its kind does not allow. -/
  | missingChild (kind : Term.Kind) (expected : Arity) (found : Nat) (span : Span)
  /-- The root of a module has another tag. -/
  | notAModule (kind : String)
deriving DecidableEq, Repr

def ShapeError.message : ShapeError → String
  | unsupportedKind kind _ => s!"don't know how to instantiate node kind `{kind}`"
  | malformedInteger text _ => s!"malformed integer literal `{text}`"
  | missingChild kind expected found _ =>
    "`" ++ kind.tag ++ "` node has " ++ toString found ++ " children, expected " ++
      expected.description
  | notAModule kind => s!"expected a `mod` root, found `{kind}`"

namespace Term

mutual

/-- The term of a parse tree. A module below the root is named by its text. -/
def ofTree : Tree → Except ShapeError Term
  | ⟨kind, text, span, children⟩ =>
    if kind = Tree.moduleKind then do return module text (← ofTrees children)
    else if kind = Tree.symbolKind then .ok (symbol text)
    else if kind = Tree.integerKind then
      match Numeral.ofDigits? text with
      | some n => .ok (integer n)
      | none => .error (.malformedInteger text span)
    else if kind = Tree.lambdaKind then
      match children with
      | [] => .error (.missingChild .lambda .atLeastOne 0 span)
      | body :: params => do return lambda (← ofTree body) (← ofTrees params)
    else if kind = Tree.applyKind then
      match children with
      | [] => .error (.missingChild .apply .atLeastOne 0 span)
      | callee :: args => do return apply (← ofTree callee) (← ofTrees args)
    else if kind = Tree.blockKind then do return block (← ofTrees children)
    else if kind = Tree.assignKind then
      match children with
      | [target, value] => do return assign (← ofTree target) (← ofTree value)
      | _ => .error (.missingChild .assign .exactlyTwo children.length span)
    else .error (.unsupportedKind kind span)

/-- The terms of a list of parse trees. -/
def ofTrees : List Tree → Except ShapeError (List Term)
  | [] => .ok []
  | t :: ts => do return (← ofTree t) :: (← ofTrees ts)

end

end Term

/-- The module with the given name whose expressions are the children of a parse tree. -/
def Module.ofTree (name : String) (tree : Tree) : Except ShapeError Module :=
  if tree.kind = Tree.moduleKind then do return ⟨name, ← Term.ofTrees tree.children⟩
  else .error (.notAModule tree.kind)

end LambdaLift
