import LambdaLift.Suggestion
import LambdaLift.Term

/-!
# Errors of lifting
-/

namespace LambdaLift

/-- Why a term has no C form. -/
inductive LowerError where
  /-- A symbol is no parameter of the function that it stands in; `suggestions` are the closest
  ones. -/
  | unresolvedSymbol (name : String) (suggestions : List String)
  /-- Modules, blocks and assignments have no C form. -/
  | unsupported (kind : Term.Kind)
  /-- A parameter is not a symbol. -/
  | expectedSymbol (found : Term.Kind)
deriving DecidableEq, Repr

def LowerError.message : LowerError → String
  | unresolvedSymbol name suggestions =>
    s!"unresolved symbol `{name}`" ++ Suggestion.question suggestions
  | unsupported kind => "cannot lower a `" ++ kind.tag ++ "` node"
  | expectedSymbol found => "expected a symbol as lambda parameter, found `" ++ found.tag ++ "`"

end LambdaLift
