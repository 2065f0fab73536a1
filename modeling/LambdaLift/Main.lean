import LambdaLift.Outcome

/-!
# The program

Runs a request on the real file system and prints the outcome.
-/

namespace LambdaLift.Main

/-- The cause of a failure that the system reports. -/
def fileErrorOf : IO.Error → FileError
  | .noFileOrDirectory _ _ _ => .notFound
  | .alreadyExists _ _ _ => .alreadyExists
  | .inappropriateType _ code _ => if code = 21 then .isADirectory else .notADirectory
  | e => .other (toString e)

/-- The result of an action on files. -/
def attempt {α : Type} (action : IO α) : IO (Except FileError α) := do
  try return .ok (← action) catch e => return .error (fileErrorOf e)

instance : Files IO where
  readText path := do
    match ← attempt (IO.FS.readBinFile path) with
    | .error e => return .error e
    | .ok bytes =>
      match String.fromUTF8? bytes with
      | some text => return .ok text
      | none => return .error .invalidText
  isFile path := do
    match ← attempt (do return (← (← IO.FS.realPath path).metadata).type) with
    | .ok .file => return true
    | _ => return false
  createDirs path := if path.isEmpty then return .ok () else attempt (IO.FS.createDirAll path)
  writeText path text := attempt (IO.FS.writeFile path text)

/-- A duration in seconds with two places. -/
def seconds (milliseconds : Nat) : String :=
  let hundredths := milliseconds / 10
  let places := toString (hundredths % 100)
  toString (hundredths / 100) ++ "." ++ (if hundredths % 100 < 10 then "0" else "") ++ places

/-- The lines that explain a syntax error. -/
def explanation (e : SyntaxError) : List String :=
  [e.code, "", "  × " ++ e.message] ++
    e.labels.map (fun l =>
      "    at " ++ toString l.span.start ++ ".." ++ toString l.span.stop ++
        (l.remark.map (": " ++ ·)).getD "") ++
    (e.help.map fun h => "  help: " ++ h).toList

/-- A line of the log. -/
def logLine (e : Event) : String :=
  let value : Event.Value → String
    | .text s => "\"" ++ s ++ "\""
    | .number n => toString n
  e.level.name ++ ": " ++ e.message ++
    String.join (e.fields.map fun f => " " ++ f.1 ++ "=" ++ value f.2)

/-- Whether an event is logged by default. -/
def isLogged (e : Event) : Bool := e.level == .info || e.level == .warn

end LambdaLift.Main

open LambdaLift LambdaLift.Main in
/-- Runs the program. -/
def main (args : List String) : IO UInt32 := do
  let start ← IO.monoMsNow
  let run ← runProgram args
  let stop ← IO.monoMsNow
  let stderr ← IO.getStderr
  if run.traced then
    for e in run.events.filter isLogged do stderr.putStrLn (logLine e)
  for line in run.outcome.stdout ("Finished in " ++ seconds (stop - start) ++ "s") do
    IO.println line
  match run.outcome with
  | .refused e => stderr.putStrLn ("error: " ++ e.message)
  | .failed _ (.badSource _ e) => for line in explanation e do stderr.putStrLn line
  | _ => pure ()
  if let some report := run.outcome.report? then
    for line in report.lines do stderr.putStrLn line
  return run.outcome.exitCode.toUInt32
