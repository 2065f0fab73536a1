import LambdaLift.Text.Split

/-!
# Paths

A path is a text of names separated by slashes. Its components leave out empty names and single
dots, a dot at the start of a relative path excepted.
-/

namespace LambdaLift.Path

/-- The non-empty names of a path. -/
def names (path : String) : List String :=
  ((Text.split '/' path.toList).filter (!·.isEmpty)).map String.ofList

def isAbsolute (path : String) : Bool := path.toList.head? == some '/'

def endsWithSlash (path : String) : Bool := path.toList.getLast? == some '/'

/-- The names of a path without the dots that mean nothing. -/
def components (path : String) : List String :=
  match names path with
  | [] => []
  | name :: rest =>
    let rest := rest.filter (· != ".")
    if name == "." && isAbsolute path then rest else name :: rest

/-- The last name of a path, unless the path ends at a directory that it does not name. -/
def fileName? (path : String) : Option String :=
  (components path).getLast?.filter fun name => name != "." && name != ".."

/-- A file name without what follows its last dot. A name whose only dot is its first character is
kept whole. -/
def stem (name : String) : String :=
  match name.toList.reverse.dropWhile (· != '.') with
  | [] => name
  | _ :: before => if before.isEmpty then name else String.ofList before.reverse

/-- The name of the module that a source file holds. -/
def moduleName (path : String) : String :=
  match fileName? path with
  | some name => stem name
  | none => "unknown"

/-- A path below a directory; an absolute path is below no directory but the root. -/
def join (dir path : String) : String :=
  if isAbsolute path || dir.isEmpty then path
  else if endsWithSlash dir then dir ++ path
  else dir ++ "/" ++ path

/-- The path with the given components. -/
def ofComponents (absolute : Bool) (components : List String) : String :=
  (if absolute then "/" else "") ++ "/".intercalate components

/-- A path and the paths of the directories that contain it, the innermost first. The directory that
relative paths start from is not among them. -/
def ancestors (path : String) : List String :=
  if path.isEmpty then []
  else
    let parts := components path
    let absolute := isAbsolute path
    path :: (List.range parts.length).reverse.filterMap fun n =>
      if n = 0 && !absolute then none else some (ofComponents absolute (parts.take n))

end LambdaLift.Path
