import LambdaLift.CommandLine
import LambdaLift.FileJob
import LambdaLift.Settings
import LambdaLift.Text.Split

/-!
# Outcomes

What the program does with a request, and what it prints about it. The settings file is read before
anything is announced; a value on the command line wins over one in the file.
-/

namespace LambdaLift

/-- How a run of the program ended. -/
inductive Outcome where
  | refused (error : CommandLine.UsageError)
  | version
  | help
  | misconfigured (error : SettingsError)
  | compiled (source : String) (artifacts : Artifacts)
  | failed (source : String) (error : CompileError)

/-- A run that ended, and the events on the way. -/
structure Run where
  outcome : Outcome
  events : List Event := []
  /-- Whether the user wants to see the events. -/
  traced : Bool := false

namespace CommandLine.Invocation

/-- The job of an invocation under given settings. -/
def job (i : Invocation) (settings : Settings) : FileJob where
  path := i.source
  outDir := (i.outDir.or settings.outDir).getD "out"
  name := i.name
  format := if i.rawTree then .jsonTree else .text
  options := { style := settings.style, core := settings.core }

/-- Reads the settings and compiles. -/
def run {m : Type → Type} [Monad m] [Files m] (i : Invocation) : m Run := do
  match ← Settings.discover i.config "" with
  | .error e => return ⟨.misconfigured e, [], i.trace⟩
  | .ok settings =>
    match ← (i.job settings).run with
    | (.ok artifacts, events) => return ⟨.compiled i.source artifacts, events, i.trace⟩
    | (.error e, events) => return ⟨.failed i.source e, events, i.trace⟩

end CommandLine.Invocation

/-- Does what a list of arguments asks for. -/
def runProgram {m : Type → Type} [Monad m] [Files m] (args : List String) : m Run :=
  match CommandLine.read args with
  | .error e => return { outcome := .refused e }
  | .ok .version => return { outcome := .version }
  | .ok .help => return { outcome := .help }
  | .ok (.compile invocation) => invocation.run

/-- The name and the number of the program. -/
def versionLine : String := "kv 0.1.0"

/-- How the program is called. -/
def helpLines : List String :=
  ["Lambda-lifting compiler from kv to C", "", "Usage: kv [OPTIONS] <SOURCE>", "", "Arguments:",
    "  <SOURCE>  Source file to compile", "", "Options:",
    "      --out-dir <OUT_DIR>  Directory for the generated files [default: out]",
    "      --name <NAME>        Module name [default: source file stem]",
    "      --config <CONFIG>    Configuration file [default: kv.toml if present]",
    "      --raw-tree           Read the source as a JSON raw parse tree",
    "      --trace              Log compiler events", "  -h, --help               Print help",
    "  -V, --version            Print version"]

/-- What an error report says: what could not be done and, where it is told apart, why. -/
structure ErrorReport where
  context : String
  cause : Option String

/-- The lines of an error report; those of the cause are indented. -/
def ErrorReport.lines (r : ErrorReport) : List String :=
  Text.lines ("Error: " ++ r.context) ++
    match r.cause with
    | none => []
    | some cause => "" :: "Caused by:" :: (Text.lines cause).map ("    " ++ ·)

namespace Outcome

/-- The status that the program exits with. -/
def exitCode : Outcome → Nat
  | refused _ => 2
  | version => 0
  | help => 0
  | misconfigured _ => 1
  | compiled _ _ => 0
  | failed _ _ => 1

/-- The lines on standard output; `finished` is the last one of a successful compilation. -/
def stdout (finished : String) : Outcome → List String
  | refused _ => []
  | version => [versionLine]
  | help => helpLines
  | misconfigured _ => []
  | compiled source artifacts =>
    Text.lines s!"Compiling {source}" ++ Text.lines ("  Header: " ++ artifacts.header) ++
      Text.lines ("  Source: " ++ artifacts.source) ++ [finished]
  | failed source _ => Text.lines s!"Compiling {source}"

/-- The final report of a run that failed on something other than its arguments. -/
def report? : Outcome → Option ErrorReport
  | refused _ => none
  | version => none
  | help => none
  | misconfigured (.unreadable path cause) =>
    some ⟨(SettingsError.unreadable path cause).message, some cause.message⟩
  | misconfigured (.malformed path) => some ⟨(SettingsError.malformed path).message, none⟩
  | compiled _ _ => none
  | failed _ (.badSource module _) =>
    some ⟨s!"Could not compile module `{module}` due to syntax errors", none⟩
  | failed source e => some ⟨s!"Failed to compile {source}", some e.message⟩

end Outcome

end LambdaLift
