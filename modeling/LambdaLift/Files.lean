/-!
# Operations on files

What the program asks of the files around it. The same programs run on a model of a file system and
on a real one.
-/

namespace LambdaLift

/-- Why an operation on a file failed. -/
inductive FileError where
  | notFound
  | isADirectory
  | notADirectory
  | alreadyExists
  | nameTooLong
  /-- The path holds a character that no path can hold. -/
  | invalidPath
  /-- The file is not UTF-8 text. -/
  | invalidText
  /-- Any failure that the file system model does not know. -/
  | other (description : String)
deriving DecidableEq, Repr

def FileError.message : FileError → String
  | notFound => "No such file or directory (os error 2)"
  | isADirectory => "Is a directory (os error 21)"
  | notADirectory => "Not a directory (os error 20)"
  | alreadyExists => "File exists (os error 17)"
  | nameTooLong => "File name too long (os error 36)"
  | invalidPath => "file name contained an unexpected NUL byte"
  | invalidText => "stream did not contain valid UTF-8"
  | other description => description

/-- The file operations that a compilation needs. -/
class Files (m : Type → Type) where
  readText : String → m (Except FileError String)
  isFile : String → m Bool
  /-- Makes a directory and all directories that contain it, where they are missing. -/
  createDirs : String → m (Except FileError Unit)
  /-- Makes a file or replaces what it holds. -/
  writeText : String → String → m (Except FileError Unit)

end LambdaLift
