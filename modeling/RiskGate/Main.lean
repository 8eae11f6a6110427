import RiskGate.CommandLine.Run

/-! # The command-line tool

Reads the files that a command line names, runs the command on what they hold, and carries out what
comes of it.
-/

namespace RiskGate.CommandLine

/-- The failure with a number and a text of the operating system. Some operations report the number
with its sign changed. -/
def FileFailure.ofNumber (code : UInt32) (text : String) : FileFailure :=
  match if code < 0x80000000 then code else -code with
  | 20 => .notADirectory
  | 21 => .isADirectory
  | 36 => .nameTooLong
  | _ => .other text

/-- The failure that an error of the operating system stands for. -/
def FileFailure.ofError : IO.Error → FileFailure
  | .noFileOrDirectory .. => .notFound
  | .inappropriateType _ code text => .ofNumber code text
  | .invalidArgument _ code text => .ofNumber code text
  | e => .other (toString e)

/-- Reads a file. -/
def readFile (path : String) : IO (Except FileFailure ByteArray) := do
  try
    return .ok (← IO.FS.readBinFile path)
  catch e =>
    return .error (.ofError e)

/-- Writes a file, and answers why it could not. -/
def writeFile (path text : String) : IO (Option FileFailure) := do
  try
    IO.FS.writeFile path text
    return none
  catch e =>
    return some (.ofError e)

/-- The files that a request reads. -/
def Request.inputs : Request → List String
  | .features request => [request.factsPath]
  | .assess request =>
    [request.factsPath, request.probabilities] ++ request.importance.toList ++ request.config.toList
  | _ => []

/-- Runs a command line and answers its exit code. A file that turns out not to be writable is a
failure of the whole command, and arguments that make no sense are answered with the usage. The
readers give no reasons, so the error about a document that they do not accept only names it. -/
def perform (args : List String) : IO UInt32 := do
  let paths := ((parse args).map Request.inputs).getD []
  let contents ← paths.mapM fun path => do return (path, ← readFile path)
  let files : FileSystem := {
    read := fun path => (contents.lookup path).getD (.error .notFound)
    writeFailure? := fun _ => none }
  let planned := run files args
  let failure? ← match planned.written with
    | some (path, text) => writeFile path text
    | none => pure none
  let outcome := match failure? with
    | some failure => run { files with writeFailure? := fun _ => some failure } args
    | none => planned
  IO.print outcome.stdout
  if let some line := outcome.error then IO.eprintln line
  if (parse args).isNone then IO.eprint helpText
  return outcome.exitCode.toUInt32

end RiskGate.CommandLine

/-- The entry point. -/
def main (args : List String) : IO UInt32 := RiskGate.CommandLine.perform args
