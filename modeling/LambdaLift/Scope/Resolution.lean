import LambdaLift.Logged
import LambdaLift.Scope.Walk

/-!
# Resolution

Every occurrence of a symbol in a module, those in binding positions included, is resolved to what
the scope chain says at that point. An occurrence is captured if it stands inside a lambda and is
bound by a frame outside the innermost one.
-/

namespace LambdaLift

/-- An occurrence of a symbol and what it means. -/
structure Resolution where
  site : Symbol
  binding : Binding
  captured : Bool
deriving DecidableEq, Repr

/-- Whether the occurrence means a built-in. -/
def Resolution.isBuiltin (r : Resolution) : Bool :=
  match r.binding with
  | .builtin _ => true
  | .symbol _ _ => false

/-- Whether a binding lies outside the innermost lambda of a chain. -/
def Binding.isCaptured (binding : Binding) (chain : Chain) : Bool :=
  match binding, chain.innermost? .lambda with
  | .symbol _ frame, some lambda => frame < lambda
  | _, _ => false

/-- Resolves one occurrence of a symbol. -/
def Symbol.resolve (site : Symbol) (chain : Chain) : Except ResolveError Resolution := do
  let binding ← chain.get site.name
  return ⟨site, binding, binding.isCaptured chain⟩

/-- Collects a resolution at every symbol. -/
def resolver : Visitor ResolveError (List Resolution) Unit where
  visit v := fun resolutions =>
    match v.term with
    | .symbol name =>
      match Symbol.resolve ⟨name, v.site⟩ v.chain with
      | .ok r => .ok () (resolutions ++ [r])
      | .error e => .error e resolutions
    | _ => .ok () resolutions
  reject := id

/-- The resolutions of all symbols of a module in the order of the walk, or the first error in
it. -/
def Module.resolve (m : Module) (core : Core) : Logged ResolveError (List Resolution) :=
  fun events =>
  match resolver.walkModule m ⟨.ofCore core, events, []⟩ with
  | .ok _ w => .ok w.memo (w.events ++ [.resolved m.name w.memo.length])
  | .error e w => .error e w.events

end LambdaLift
