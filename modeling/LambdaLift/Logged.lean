import LambdaLift.Event

/-!
# Computations that report events
-/

namespace LambdaLift

/-- A computation that reports events and may fail; a failure keeps the events before it. -/
abbrev Logged (ε α : Type) : Type := EStateM ε (List Event) α

/-- Reports one event. -/
def Logged.emit {ε : Type} (event : Event) : Logged ε Unit := modify (· ++ [event])

/-- Reports several events. -/
def Logged.emitAll {ε : Type} (events : List Event) : Logged ε Unit := modify (· ++ events)

/-- Changes the error and keeps the events. -/
def Logged.mapError {ε ε' α : Type} (f : ε → ε') (action : Logged ε α) : Logged ε' α :=
  fun events =>
  match action events with
  | .ok a events' => .ok a events'
  | .error e events' => .error (f e) events'

/-- A plain result as a computation that reports nothing. -/
def Logged.ofExcept {ε ε' α : Type} (wrap : ε → ε') : Except ε α → Logged ε' α
  | .ok a => pure a
  | .error e => throw (wrap e)

end LambdaLift
