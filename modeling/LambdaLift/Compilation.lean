import LambdaLift.Files
import LambdaLift.Lifting
import LambdaLift.Scope.Resolution
import LambdaLift.Term.OfTree
import LambdaLift.Tree.JsonReader
import LambdaLift.Tree.Slices

/-!
# Compilation

A source, which is program text or a parse tree as JSON, becomes a module; the module is resolved
and lifted; the unit is emitted as a header and a source.
-/

namespace LambdaLift

/-- How a source is written. -/
inductive SourceFormat where
  | text
  | jsonTree
deriving DecidableEq, Repr

/-- What a compilation depends on beside its source. -/
structure CompileOptions where
  style : Target.Style := {}
  core : List String := []

/-- Why a compilation failed. -/
inductive CompileError where
  | badSource (module : String) (error : SyntaxError)
  | badJson (fault : Json.Fault)
  | badShape (error : ShapeError)
  | resolve (error : ResolveError)
  | lower (error : LowerError)
  | file (error : FileError)
deriving DecidableEq, Repr

def CompileError.message : CompileError → String
  | badSource module _ => s!"syntax error in module `{module}`"
  | badJson fault => "malformed raw tree: " ++ fault.message
  | badShape e => e.message
  | resolve e => e.message
  | lower e => e.message
  | file e => e.message

/-- The module of a parse tree. -/
def Module.load (name : String) (tree : Tree) : Logged CompileError Module := do
  let m ← Logged.ofExcept .badShape (Module.ofTree name tree)
  Logged.emit (.instantiated m.name m.body.length)
  return m

/-- The module that a source holds. -/
def Module.ofSource (format : SourceFormat) (name source : String) :
    Logged CompileError Module := do
  let tree ← match format with
    | .text => Logged.ofExcept (.badSource name) (Tree.ofSource source)
    | .jsonTree => Logged.ofExcept .badJson (Tree.ofJson source)
  Module.load name tree

/-- Resolves and lifts a module. Captured names are reported before lifting refuses them. -/
def Module.compile (m : Module) (options : CompileOptions) :
    Logged CompileError Target.Emitted := do
  let resolutions ← Logged.mapError .resolve (m.resolve (.ofNames options.core))
  Logged.emitAll ((resolutions.filter Resolution.captured).map fun r =>
    .captured m.name r.site.name)
  let unit ← Logged.mapError .lower (m.lower options.style)
  Logged.emit (.compiled unit.name unit.size)
  return unit.emit options.style

/-- Compiles a source as the module with a given name. -/
def compile (format : SourceFormat) (name source : String) (options : CompileOptions) :
    Logged CompileError Target.Emitted := do
  let m ← Module.ofSource format name source
  m.compile options

/-- The module that was read from a program text. -/
def Module.ofRead (name : String) (read : Except SyntaxError Tree) :
    Logged CompileError Module := do
  let tree ← Logged.ofExcept (.badSource name) read
  Module.load name tree

/-- Compiles a program text that is read by slices, if reading does not break off. -/
def compileSlices (name source : String) (options : CompileOptions) (events : List Event) :
    Option (EStateM.Result CompileError (List Event) Target.Emitted) :=
  (Tree.ofSlices source).map fun read =>
    (do
      let m ← Module.ofRead name read
      m.compile options : Logged CompileError Target.Emitted) events

end LambdaLift
