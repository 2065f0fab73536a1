import LambdaLift.Scope.Frame

/-!
# Events

What a compilation reports about itself while it runs. The events up to a failure remain.
-/

namespace LambdaLift

/-- Something that happened during a compilation. -/
inductive Event where
  | instantiated (module : String) (exprs : Nat)
  | framePushed (kind : FrameKind) (depth : Nat)
  | framePopped (depth : Nat)
  | resolved (module : String) (symbols : Nat)
  | captured (module symbol : String)
  | lifted (function : String) (params : Nat)
  | compiled (module : String) (functions : Nat)
  | wrote (header source : String)
deriving DecidableEq, Repr

namespace Event

/-- How much an event matters. -/
inductive Level where
  | trace
  | debug
  | info
  | warn
deriving DecidableEq, Repr

def Level.name : Level → String
  | trace => "trace"
  | debug => "debug"
  | info => "info"
  | warn => "warn"

/-- The value of a field of an event. -/
inductive Value where
  | text (s : String)
  | number (n : Nat)
deriving DecidableEq, Repr

def level : Event → Level
  | instantiated _ _ => .trace
  | framePushed _ _ => .trace
  | framePopped _ => .trace
  | resolved _ _ => .debug
  | captured _ _ => .warn
  | lifted _ _ => .debug
  | compiled _ _ => .info
  | wrote _ _ => .info

def message : Event → String
  | instantiated _ _ => "instantiated module"
  | framePushed _ _ => "push frame"
  | framePopped _ => "pop frame"
  | resolved _ _ => "resolved module"
  | captured _ _ => "lambda uses a name bound outside it"
  | lifted _ _ => "lifted lambda"
  | compiled _ _ => "compiled module"
  | wrote _ _ => "wrote compilation unit"

def fields : Event → List (String × Value)
  | instantiated module exprs => [("module", .text module), ("exprs", .number exprs)]
  | framePushed kind depth => [("kind", .text kind.name), ("depth", .number depth)]
  | framePopped depth => [("depth", .number depth)]
  | resolved module symbols => [("module", .text module), ("symbols", .number symbols)]
  | captured module symbol => [("module", .text module), ("symbol", .text symbol)]
  | lifted function params => [("function", .text function), ("params", .number params)]
  | compiled module functions => [("module", .text module), ("functions", .number functions)]
  | wrote header source => [("header", .text header), ("source", .text source)]

end Event

end LambdaLift
