import LambdaLift.Logged
import LambdaLift.Renaming
import LambdaLift.Target.CompilationUnit
import LambdaLift.Target.Function

/-!
# Lambda lifting

Every lambda becomes a function of its own, and stands in the surrounding expression as the name of
that function. The lambdas inside a body are lifted before the function around them, so a function's
number is the number of functions lifted before it. Functions that were lifted before an error stay
in the unit.
-/

namespace LambdaLift

/-- The unit under construction and the events so far. -/
structure Lifting where
  unit : Target.CompilationUnit
  events : List Event

/-- Adds a function for a lambda. -/
def Lifting.push (style : Target.Style) (f : Target.Function) (s : Lifting) : Lifting where
  unit := s.unit.push ⟨f.declaration style, f.definition style⟩
  events := s.events ++ [.lifted f.name f.params.length]

/-- The emitted names of a lambda's parameters, and the names that its body sees. -/
def Renaming.bindParams (r : Renaming) : List Term → Except LowerError (List String × Renaming)
  | [] => .ok ([], r)
  | .symbol name :: params => do
    let (names, r') ← (r.bind name).bindParams params
    return (r.fresh name :: names, r')
  | param :: _ => .error (.expectedSymbol param.kind)

/-- A plain result inside the lifting of a term. -/
def Lifting.ofExcept {α : Type} : Except LowerError α → EStateM LowerError Lifting α
  | .ok a => pure a
  | .error e => throw e

namespace Term

mutual

/-- The C expression of a term whose symbols mean what `r` says; its lambdas are lifted on the
way. -/
def lower (style : Target.Style) (r : Renaming) : Term → EStateM LowerError Lifting Target.Expr
  | symbol name => do return .name (← Lifting.ofExcept (r.get name))
  | integer value => return .literal value
  | lambda body params => do
    let (names, inner) ← Lifting.ofExcept (Renaming.empty.bindParams params)
    let result ← body.lower style inner
    let name := style.functionName (← get).unit.size
    modify (Lifting.push style ⟨name, names, result⟩)
    return .name name
  | apply callee args => do
    let f ← callee.lower style r
    let es ← lowerAll style r args
    return .call f es
  | module _ _ => throw (.unsupported .module)
  | block _ => throw (.unsupported .block)
  | assign _ _ => throw (.unsupported .assign)

/-- The C expressions of a list of terms. -/
def lowerAll (style : Target.Style) (r : Renaming) :
    List Term → EStateM LowerError Lifting (List Target.Expr)
  | [] => return []
  | t :: ts => do
    let e ← t.lower style r
    let es ← lowerAll style r ts
    return e :: es

end

end Term

/-- The unit of all functions lifted from a module. No name is bound around its expressions, and
their own values are dropped. -/
def Module.lower (m : Module) (style : Target.Style) : Logged LowerError Target.CompilationUnit :=
  fun events =>
  match Term.lowerAll style .empty m.body ⟨.empty m.name, events⟩ with
  | .ok _ s => .ok s.unit s.events
  | .error e s => .error e s.events

end LambdaLift
