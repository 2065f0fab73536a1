import LambdaLift.Event
import LambdaLift.Scope.Chain

/-!
# Walking terms under a scope chain

A walk visits the parts of a term from left to right and then the term itself, and keeps a scope
chain on the way:

* a block is walked in a frame of its own;
* a lambda is walked in a frame of its own that defines its parameters before the body is walked;
* an assignment defines its target in the innermost frame before its parts are walked.

The visitor of a block or a lambda still sees the frame of that term. The frame is left whether or
not the walk succeeds.
-/

namespace LambdaLift

/-- What a visitor sees of a term: its number, the results of its parts, and the chain. -/
structure Visit (α : Type) where
  site : Nat
  term : Term
  results : List α
  chain : Chain

/-- What to do at each term, with a state `σ` of its own that outlives a failure. -/
structure Visitor (ε σ α : Type) where
  visit : Visit α → EStateM ε σ α
  /-- How a term in a binding position that is no symbol is reported. -/
  reject : ResolveError → ε

/-- The state of a walk: the chain, the events so far and the visitor's own state. -/
structure Walk (σ : Type) where
  chain : Chain
  events : List Event
  memo : σ

/-- Enters a frame. -/
def Walk.enter {σ : Type} (kind : FrameKind) (w : Walk σ) : Walk σ :=
  let chain := w.chain.push kind
  { w with chain, events := w.events ++ [.framePushed kind chain.depth] }

/-- Leaves a frame, which is reported unless it is the outermost one. -/
def Walk.leave {σ : Type} (w : Walk σ) : Walk σ :=
  match w.chain.enclosing with
  | [] => w
  | _ :: _ =>
    let chain := w.chain.pop
    { w with chain, events := w.events ++ [.framePopped chain.depth] }

namespace Visitor

variable {ε σ α : Type}

/-- Runs an action in a frame that is left afterwards in any case. -/
def inFrame {β : Type} (kind : FrameKind) (action : EStateM ε (Walk σ) β) :
    EStateM ε (Walk σ) β := fun w =>
  match action (w.enter kind) with
  | .ok b w' => .ok b w'.leave
  | .error e w' => .error e w'.leave

/-- Calls the visitor at a term. -/
def call (v : Visitor ε σ α) (site : Nat) (term : Term) (results : List α) :
    EStateM ε (Walk σ) α := fun w =>
  match v.visit ⟨site, term, results, w.chain⟩ w.memo with
  | .ok a memo => .ok a { w with memo }
  | .error e memo => .error e { w with memo }

/-- Defines the symbol in a binding position. -/
def define (v : Visitor ε σ α) (position : BindingPosition) (site : Nat) (term : Term) :
    EStateM ε (Walk σ) Unit :=
  match term with
  | .symbol name => modify fun w => { w with chain := w.chain.define ⟨name, site⟩ }
  | term => throw (v.reject (.expectedSymbol term.kind position))

/-- Defines the parameters of a lambda, the first one of which has number `site`. -/
def defineParams (v : Visitor ε σ α) : Nat → List Term → EStateM ε (Walk σ) Unit
  | _, [] => pure ()
  | site, param :: params => do
    v.define .parameter site param
    v.defineParams (site + param.size) params

mutual

/-- Walks a term with a given number. -/
def walk (v : Visitor ε σ α) (site : Nat) : Term → EStateM ε (Walk σ) α
  | .module name body => do
    let results ← v.walkAll (site + 1) body
    v.call site (.module name body) results
  | .symbol name => v.call site (.symbol name) []
  | .integer value => v.call site (.integer value) []
  | .lambda body params => inFrame .lambda do
    v.defineParams (site + 1 + body.size) params
    let result ← v.walk (site + 1) body
    let results ← v.walkAll (site + 1 + body.size) params
    v.call site (.lambda body params) (result :: results)
  | .apply callee args => do
    let result ← v.walk (site + 1) callee
    let results ← v.walkAll (site + 1 + callee.size) args
    v.call site (.apply callee args) (result :: results)
  | .block body => inFrame .block do
    let results ← v.walkAll (site + 1) body
    v.call site (.block body) results
  | .assign target value => do
    v.define .target (site + 1) target
    let first ← v.walk (site + 1) target
    let second ← v.walk (site + 1 + target.size) value
    v.call site (.assign target value) [first, second]

/-- Walks a list of terms, the first one of which has number `site`. -/
def walkAll (v : Visitor ε σ α) (site : Nat) : List Term → EStateM ε (Walk σ) (List α)
  | [] => pure []
  | term :: terms => do
    let result ← v.walk site term
    let results ← v.walkAll (site + term.size) terms
    return result :: results

end

/-- Walks the expressions of a module, which share one chain. -/
def walkModule (v : Visitor ε σ α) (m : Module) : EStateM ε (Walk σ) (List α) := v.walkAll 1 m.body

end Visitor

end LambdaLift
