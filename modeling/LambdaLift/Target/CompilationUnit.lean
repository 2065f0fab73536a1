import LambdaLift.Target.Style

/-!
# Compilation units

A unit collects functions in the order of their creation, each with its declaration and its
definition. It is emitted as a header with all declarations and a source with all definitions.
-/

namespace LambdaLift.Target

/-- The two texts of a function. -/
structure FunctionText where
  declaration : String
  definition : String
deriving DecidableEq, Repr

/-- The functions of one module. -/
structure CompilationUnit where
  name : String
  functions : List FunctionText
deriving DecidableEq, Repr

/-- The texts of the two files of a unit. -/
structure Emitted where
  name : String
  header : String
  source : String
deriving DecidableEq, Repr

/-- A character of a unit's name as it stands in the header guard. -/
def guardChar (c : Char) : Char := if c.isAlphanum then c.toUpper else '_'

/-- The macro that keeps a header from being read twice. -/
def headerGuard (name : String) : String :=
  "__" ++ String.ofList (name.toList.map guardChar) ++ "_H_"

namespace CompilationUnit

/-- The unit without functions. -/
def empty (name : String) : CompilationUnit := ⟨name, []⟩

def size (u : CompilationUnit) : Nat := u.functions.length

def declarations (u : CompilationUnit) : List String := u.functions.map FunctionText.declaration

def definitions (u : CompilationUnit) : List String := u.functions.map FunctionText.definition

/-- Adds a function at the end. -/
def push (u : CompilationUnit) (f : FunctionText) : CompilationUnit :=
  { u with functions := u.functions ++ [f] }

/-- The text of the header: the value type and all declarations inside the guard. -/
def header (style : Style) (u : CompilationUnit) : String :=
  let guard := headerGuard u.name
  "// auto generated\n#ifndef " ++ guard ++ "\n#define " ++ guard ++ "\n\ntypedef void *" ++
    style.anyType ++ ";\n\n" ++ "\n".intercalate u.declarations ++ "\n\n#endif // " ++ guard ++ "\n"

/-- The text of the source: the header is included and all functions are defined. -/
def source (u : CompilationUnit) : String :=
  "#include \"" ++ u.name ++ ".h\"\n\n" ++ "\n".intercalate u.definitions

/-- Both texts of a unit. -/
def emit (style : Style) (u : CompilationUnit) : Emitted := ⟨u.name, u.header style, u.source⟩

@[simp] theorem size_push (u : CompilationUnit) (f : FunctionText) :
    (u.push f).size = u.size + 1 := by
  simp [size, push]

end CompilationUnit

end LambdaLift.Target
