/-!
# The command line

Arguments are read from left to right and the first one that is wrong decides. A word of two dashes
ends the options. The value of an option follows an equals sign or is the next word, which then does
not start with a dash unless it is one.
-/

namespace LambdaLift.CommandLine

/-- What to compile, as the user said it. -/
structure Invocation where
  source : String
  outDir : Option String
  name : Option String
  config : Option String
  rawTree : Bool
  trace : Bool
deriving DecidableEq, Repr

/-- What the user asks for. -/
inductive Request where
  | compile (invocation : Invocation)
  | version
  | help
deriving DecidableEq, Repr

/-- Why arguments make no request. -/
inductive UsageError where
  | unknownOption (word : String)
  | missingValue (option : String)
  | emptyPath (option : String)
  | repeated (option : String)
  | unexpectedValue (option : String)
  | extraArgument (word : String)
  | missingSource
deriving DecidableEq, Repr

def UsageError.message : UsageError → String
  | unknownOption word => s!"unexpected argument '{word}' found"
  | missingValue option => s!"a value is required for '{option}' but none was supplied"
  | emptyPath option => s!"a value is required for '{option}' but none was supplied"
  | repeated option => s!"the argument '{option}' cannot be used multiple times"
  | unexpectedValue option => s!"unexpected value for '{option}' found; no more were expected"
  | extraArgument word => s!"unexpected argument '{word}' found"
  | missingSource => "the following required arguments were not provided: <SOURCE>"

/-- The options that take a value. -/
inductive ValueOption where
  | outDir
  | name
  | config
deriving DecidableEq, Repr

/-- The options that stand alone. -/
inductive Flag where
  | rawTree
  | trace
  | version
  | help
deriving DecidableEq, Repr

/-- What a word with two dashes in front can name. -/
inductive NamedOption where
  | takesValue (option : ValueOption)
  | flag (flag : Flag)

def option? : String → Option NamedOption
  | "out-dir" => some (.takesValue .outDir)
  | "name" => some (.takesValue .name)
  | "config" => some (.takesValue .config)
  | "raw-tree" => some (.flag .rawTree)
  | "trace" => some (.flag .trace)
  | "version" => some (.flag .version)
  | "help" => some (.flag .help)
  | _ => none

/-- What has been read so far. -/
structure Seen where
  source : Option String := none
  outDir : Option String := none
  name : Option String := none
  config : Option String := none
  rawTree : Bool := false
  trace : Bool := false

namespace Seen

/-- Stores the value of an option. Paths are not empty, and no option has two values. -/
def setValue (seen : Seen) (word : String) (option : ValueOption) (value : String) :
    Except UsageError Seen :=
  match option with
  | .outDir =>
    if seen.outDir.isSome then .error (.repeated word)
    else if value.isEmpty then .error (.emptyPath word)
    else .ok { seen with outDir := value }
  | .name =>
    if seen.name.isSome then .error (.repeated word) else .ok { seen with name := value }
  | .config =>
    if seen.config.isSome then .error (.repeated word)
    else if value.isEmpty then .error (.emptyPath word)
    else .ok { seen with config := value }

/-- Stores the path of the source. -/
def setSource (seen : Seen) (word : String) : Except UsageError Seen :=
  if seen.source.isSome then .error (.extraArgument word)
  else if word.isEmpty then .error (.emptyPath "<SOURCE>")
  else .ok { seen with source := word }

/-- The request made by all arguments together. -/
def finish (seen : Seen) : Except UsageError Request :=
  match seen.source with
  | some source =>
    .ok (.compile ⟨source, seen.outDir, seen.name, seen.config, seen.rawTree, seen.trace⟩)
  | none => .error .missingSource

end Seen

/-- How a word looks from outside. -/
inductive Shape where
  /-- Two dashes alone. -/
  | separator
  /-- Two dashes, a name and perhaps a value after an equals sign. -/
  | long (name : String) (value : Option String)
  /-- A dash and letters. -/
  | short (letters : List Char)
  | plain

def shapeOf (word : String) : Shape :=
  match word.toList with
  | ['-', '-'] => .separator
  | '-' :: '-' :: cs =>
    let value := match cs.dropWhile (· != '=') with
      | _ :: value => some (String.ofList value)
      | [] => none
    .long (String.ofList (cs.takeWhile (· != '='))) value
  | '-' :: c :: cs => .short (c :: cs)
  | _ => .plain

/-- What to do after one word. -/
inductive Step where
  | next (seen : Seen)
  | done (request : Request)

/-- Takes note of an option that stands alone. -/
def flagStep (seen : Seen) (word : String) : Flag → Except UsageError Step
  | .rawTree =>
    if seen.rawTree then .error (.repeated word) else .ok (.next { seen with rawTree := true })
  | .trace =>
    if seen.trace then .error (.repeated word) else .ok (.next { seen with trace := true })
  | .version => .ok (.done .version)
  | .help => .ok (.done .help)

/-- The first letter after a single dash decides. -/
def shortStep (word : String) : List Char → Except UsageError Step
  | 'V' :: _ => .ok (.done .version)
  | 'h' :: _ => .ok (.done .help)
  | _ => .error (.unknownOption word)

/-- Reads the words after two dashes alone, none of which is an option. -/
def sourceOnly (seen : Seen) : List String → Except UsageError Request
  | [] => seen.finish
  | word :: words => do sourceOnly (← seen.setSource word) words

/-- Whether a word can be the value of the option before it. -/
def isValue (word : String) : Bool :=
  match shapeOf word with
  | .plain => true
  | _ => false

/-- Reads the arguments that are left. -/
def readFrom (seen : Seen) : List String → Except UsageError Request
  | [] => seen.finish
  | word :: words =>
    match shapeOf word with
    | .separator => sourceOnly seen words
    | .plain => do readFrom (← seen.setSource word) words
    | .short letters => do
      match ← shortStep word letters with
      | .next seen => readFrom seen words
      | .done request => return request
    | .long name value =>
      match option? name, value with
      | none, _ => .error (.unknownOption word)
      | some (.flag _), some _ => .error (.unexpectedValue word)
      | some (.flag flag), none => do
        match ← flagStep seen word flag with
        | .next seen => readFrom seen words
        | .done request => return request
      | some (.takesValue option), some value => do
        readFrom (← seen.setValue word option value) words
      | some (.takesValue option), none =>
        match words with
        | value :: words =>
          if isValue value then do readFrom (← seen.setValue word option value) words
          else .error (.missingValue word)
        | [] => .error (.missingValue word)

/-- The request that a list of arguments makes. -/
def read (args : List String) : Except UsageError Request := readFrom {} args

end LambdaLift.CommandLine
