import LambdaLift.Files
import LambdaLift.Path
import LambdaLift.Target.Style
import LambdaLift.Toml.Reader

/-!
# Settings

What a settings file can change: the names in the emitted C (`codegen`), the output directory
(`output`) and the built-in names (`resolve`). All of it may be left out, and keys that mean nothing
are ignored.
-/

namespace LambdaLift

/-- The settings of a compilation. -/
structure Settings where
  style : Target.Style := {}
  outDir : Option String := none
  core : List String := []
deriving DecidableEq, Repr

namespace Settings

/-- The file that is looked for when none is named. -/
def defaultFile : String := "kv.toml"

/-- A string member of a record; the outer `none` says that it is there and no string, or that the
record is none. -/
def stringMember? (record : Toml.Value) (index : Nat) (name : String) : Option (Option String) := do
  match ← record.member? index name with
  | none => return none
  | some v => return some (← v.string?)

/-- The names in the emitted C. -/
def styleOf? (v : Toml.Value) : Option Target.Style := do
  let usual : Target.Style := {}
  let anyType ← stringMember? v 0 "any_type"
  let functionPrefix ← stringMember? v 1 "function_prefix"
  let functionSuffix ← stringMember? v 2 "function_suffix"
  return ⟨anyType.getD usual.anyType, functionPrefix.getD usual.functionPrefix,
    functionSuffix.getD usual.functionSuffix⟩

/-- The output directory. -/
def outDirOf? (v : Toml.Value) : Option (Option String) := stringMember? v 0 "dir"

/-- The built-in names. -/
def coreOf? (v : Toml.Value) : Option (List String) := do
  match ← v.member? 0 "core" with
  | none => return []
  | some names => (← names.array?).mapM Toml.Value.string?

/-- One part of the settings, or its default if it is left out. -/
def part? {α : Type} (record : Toml.Value) (index : Nat) (name : String)
    (read : Toml.Value → Option α) (default : α) : Option α := do
  match ← record.member? index name with
  | none => return default
  | some v => read v

/-- The settings that a TOML value describes. -/
def ofValue? (v : Toml.Value) : Option Settings := do
  let style ← part? v 0 "codegen" styleOf? {}
  let outDir ← part? v 1 "output" outDirOf? none
  let core ← part? v 2 "resolve" coreOf? []
  return ⟨style, outDir, core⟩

/-- The settings that a text describes. -/
def parse? (text : String) : Option Settings := do ofValue? (← Toml.parse? text)

end Settings

/-- Why settings could not be had from a file. -/
inductive SettingsError where
  | unreadable (path : String) (cause : FileError)
  | malformed (path : String)
deriving DecidableEq, Repr

def SettingsError.message : SettingsError → String
  | unreadable path _ => s!"Failed to read config file: {path}"
  | malformed path => s!"Failed to parse config file: {path}"

namespace Settings

/-- The settings in a file. -/
def ofFile {m : Type → Type} [Monad m] [Files m] (path : String) :
    m (Except SettingsError Settings) := do
  match ← Files.readText path with
  | .error cause => return .error (.unreadable path cause)
  | .ok text =>
    match parse? text with
    | some settings => return .ok settings
    | none => return .error (.malformed path)

/-- The settings in the file that is named, or else in the default file of a directory. Without a
default file nothing is changed. -/
def discover {m : Type → Type} [Monad m] [Files m] (named : Option String) (dir : String) :
    m (Except SettingsError Settings) := do
  match named with
  | some path => ofFile path
  | none =>
    let path := Path.join dir defaultFile
    if ← Files.isFile path then ofFile path else return .ok {}

end Settings

end LambdaLift
