import LambdaLift.Files
import LambdaLift.Path

/-!
# File systems

A file system maps locations, which are lists of names from the root down, to directories and files.
Paths are resolved name by name, relative ones from a working directory: every name but the last has
to be that of a directory, a dot stays where it is and two dots go to the directory above.
-/

namespace LambdaLift

/-- The names from the root down to a file or directory. -/
abbrev Location := List String

/-- What stands at a location. -/
inductive Entry where
  | directory
  | file (content : ByteArray)

/-- The entries below the root, which is always a directory, and where relative paths start. -/
structure FileSystem where
  entries : List (Location × Entry)
  workDir : Location

namespace FileSystem

/-- The longest name that a file or directory can have, in bytes. -/
def maxName : Nat := 255

/-- The length, in bytes, that a path has to stay below. -/
def pathLimit : Nat := 4096

/-- What stands at a location. -/
def entry? (fs : FileSystem) (loc : Location) : Option Entry :=
  if loc.isEmpty then some .directory
  else (fs.entries.find? (·.1 == loc)).map Prod.snd

/-- Puts an entry at a location. -/
def set (fs : FileSystem) (loc : Location) (entry : Entry) : FileSystem :=
  { fs with entries := (loc, entry) :: fs.entries.filter (·.1 != loc) }

/-- A file system that holds nothing but the working directory and those around it. -/
def empty (workDir : Location) : FileSystem where
  entries := (List.range workDir.length).map fun n => (workDir.take (n + 1), .directory)
  workDir

/-- Goes from a location to one of its names, which need not be there. -/
def step (fs : FileSystem) (loc : Location) (name : String) : Except FileError Location :=
  match fs.entry? loc with
  | none => .error .notFound
  | some (.file _) => .error .notADirectory
  | some .directory =>
    if name = "." then .ok loc
    else if name = ".." then .ok loc.dropLast
    else if name.utf8ByteSize > maxName then .error .nameTooLong
    else .ok (loc ++ [name])

/-- Goes from where a path starts along some names. -/
def walk (fs : FileSystem) (path : String) (names : List String) : Except FileError Location :=
  if path.toList.contains '\x00' then .error .invalidPath
  else if path.isEmpty then .error .notFound
  else if path.utf8ByteSize ≥ pathLimit then .error .nameTooLong
  else names.foldlM fs.step (if Path.isAbsolute path then [] else fs.workDir)

/-- The names of a path, a slash at its end counting as a dot. -/
def namesOf (path : String) : List String :=
  if Path.endsWithSlash path then Path.names path ++ ["."] else Path.names path

/-- What stands where a path leads. -/
def find (fs : FileSystem) (path : String) : Except FileError Entry := do
  match fs.entry? (← fs.walk path (namesOf path)) with
  | some entry => return entry
  | none => .error .notFound

/-- The content of a file. -/
def read (fs : FileSystem) (path : String) : Except FileError ByteArray := do
  match ← fs.find path with
  | .directory => .error .isADirectory
  | .file content => return content

/-- The content of a file that holds text. -/
def readText (fs : FileSystem) (path : String) : Except FileError String := do
  match String.fromUTF8? (← fs.read path) with
  | some text => return text
  | none => .error .invalidText

def isFile (fs : FileSystem) (path : String) : Bool :=
  match fs.find path with
  | .ok (.file _) => true
  | _ => false

def isDir (fs : FileSystem) (path : String) : Bool :=
  match fs.find path with
  | .ok .directory => true
  | _ => false

/-- Makes a directory in one that is there. -/
def createDir (fs : FileSystem) (path : String) : Except FileError FileSystem := do
  let loc ← fs.walk path (Path.names path)
  match (Path.names path).getLast? with
  | none => .error .alreadyExists
  | some name =>
    if name = "." ∨ name = ".." ∨ (fs.entry? loc).isSome then .error .alreadyExists
    else return fs.set loc .directory

/-- Makes the first of some directories, each of which contains the one before. Directories that are
there are left alone, and those that were made before a failure stay. -/
def createChain (fs : FileSystem) : List String → FileSystem × Except FileError Unit
  | [] => (fs, .ok ())
  | path :: ancestors =>
    let orPresent (fs : FileSystem) (e : FileError) : FileSystem × Except FileError Unit :=
      (fs, if fs.isDir path then .ok () else .error e)
    match fs.createDir path with
    | .ok fs' => (fs', .ok ())
    | .error .notFound =>
      match fs.createChain ancestors with
      | (fs', .error e) => (fs', .error e)
      | (fs', .ok ()) =>
        match fs'.createDir path with
        | .ok fs'' => (fs'', .ok ())
        | .error e => orPresent fs' e
    | .error e => orPresent fs e

/-- Makes a directory and all directories that contain it, where they are missing. -/
def createDirs (fs : FileSystem) (path : String) : FileSystem × Except FileError Unit :=
  fs.createChain (Path.ancestors path)

/-- Makes a file or replaces what it holds. -/
def write (fs : FileSystem) (path : String) (content : ByteArray) :
    Except FileError FileSystem := do
  let loc ← fs.walk path (Path.names path)
  match (Path.names path).getLast? with
  | none => .error .isADirectory
  | some name =>
    if name = "." ∨ name = ".." ∨ Path.endsWithSlash path then .error .isADirectory
    else
      match fs.entry? loc with
      | some .directory => .error .isADirectory
      | _ => return fs.set loc (.file content)

instance : Files (StateM FileSystem) where
  readText path := do return (← get).readText path
  isFile path := do return (← get).isFile path
  createDirs path := fun fs =>
    let (fs', result) := fs.createDirs path
    (result, fs')
  writeText path text := fun fs =>
    match fs.write path text.toUTF8 with
    | .ok fs' => (.ok (), fs')
    | .error e => (.error e, fs)

end FileSystem

end LambdaLift
