import LambdaLift.Compilation
import LambdaLift.Path

/-!
# Compiling files

A source is read from a file, and the two files of its unit are written into a directory. Nothing is
written before the compilation has succeeded.
-/

namespace LambdaLift

/-- The paths of the two files of a unit. -/
structure Artifacts where
  header : String
  source : String
deriving DecidableEq, Repr

/-- Where the files of a unit go. -/
def Artifacts.inDir (dir name : String) : Artifacts :=
  ⟨Path.join dir (name ++ ".h"), Path.join dir (name ++ ".c")⟩

/-- Writes both files of a unit, the source before the header, into a directory that is made
first. -/
def Target.Emitted.write {m : Type → Type} [Monad m] [Files m] (e : Target.Emitted) (dir : String) :
    m (Except FileError Artifacts) := do
  match ← Files.createDirs dir with
  | .error err => return .error err
  | .ok () =>
    let artifacts := Artifacts.inDir dir e.name
    match ← Files.writeText artifacts.source e.source with
    | .error err => return .error err
    | .ok () =>
      match ← Files.writeText artifacts.header e.header with
      | .error err => return .error err
      | .ok () => return .ok artifacts

/-- What to compile and where to write. -/
structure FileJob where
  path : String
  outDir : String := "out"
  /-- The name of the module; without one, the name of the file. -/
  name : Option String := none
  format : SourceFormat := .text
  options : CompileOptions := {}

/-- The name of the module that a job compiles. -/
def FileJob.moduleName (job : FileJob) : String := job.name.getD (Path.moduleName job.path)

/-- Compiles a file and writes the unit, and tells what happened. -/
def FileJob.run {m : Type → Type} [Monad m] [Files m] (job : FileJob) :
    m (Except CompileError Artifacts × List Event) := do
  match ← Files.readText job.path with
  | .error err => return (.error (.file err), [])
  | .ok source =>
    match compile job.format job.moduleName source job.options [] with
    | .error err events => return (.error err, events)
    | .ok emitted events =>
      match ← emitted.write job.outDir with
      | .error err => return (.error (.file err), events)
      | .ok artifacts =>
        return (.ok artifacts, events ++ [.wrote artifacts.header artifacts.source])

end LambdaLift
