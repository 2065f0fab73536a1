import LambdaLift.Suggestion
import LambdaLift.Term

/-!
# Errors of resolution
-/

namespace LambdaLift

/-- A place in a term that binds a name. -/
inductive BindingPosition where
  | parameter
  | target
deriving DecidableEq, Repr

def BindingPosition.description : BindingPosition → String
  | parameter => "lambda parameter"
  | target => "assignment target"

/-- Why a module cannot be resolved. -/
inductive ResolveError where
  /-- No frame and no built-in has the name; `suggestions` are the closest visible names. -/
  | unresolved (name : String) (suggestions : List String)
  /-- A binding position holds something other than a symbol. -/
  | expectedSymbol (found : Term.Kind) (position : BindingPosition)
deriving DecidableEq, Repr

def ResolveError.message : ResolveError → String
  | unresolved name suggestions =>
    s!"unresolved symbol `{name}`" ++ Suggestion.question suggestions
  | expectedSymbol found position =>
    "expected a symbol as " ++ position.description ++ ", found `" ++ found.tag ++ "`"

end LambdaLift
