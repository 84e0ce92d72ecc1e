import DynamicLisp.Command.Run

/-!
The executable: hands the surroundings of the process to the command and writes its report.
-/
namespace DynamicLisp.Main

/-- Reads a stream to its end. -/
partial def readAll (stream : IO.FS.Stream) (read : ByteArray) : IO ByteArray := do
  let more ← stream.read 65536
  if more.isEmpty then return read
  readAll stream (read ++ more)

/-- What the file system holds under a path. -/
def fileState (path : String) : IO Command.FileState := do
  try
    return .bytes (← IO.FS.readBinFile path).toList
  catch
    | .noFileOrDirectory .. => return .missing
    | .inappropriateType .. => return .directory
    | e => throw e

/-- How many calls a process has begun by the time the command sets a limit on recursion. -/
def callsBegun : Nat := 6

/-- The part of the surroundings that a command with these arguments looks at. -/
def host (argv : List String) : IO Command.Host := do
  let level ← IO.getEnv "SCHEMELET_LOG_LEVEL"
  let limit ← IO.getEnv "SCHEMELET_RECURSION_LIMIT"
  let settings : Variables := fun name =>
    if name = "SCHEMELET_LOG_LEVEL" then level
    else if name = "SCHEMELET_RECURSION_LIMIT" then limit
    else none
  let limited := Command.nestingUnder callsBegun defaultDepth
  let host := fun input file => (⟨settings, input, file, defaultDepth, limited⟩ : Command.Host)
  match (Command.Arguments.parse argv).toOption.map Command.Arguments.source with
  | some (.file path) =>
    let state ← fileState path
    return host "" fun _ => state
  | some .input =>
    let bytes ← readAll (← IO.getStdin) .empty
    match String.fromUTF8? bytes with
    | some input => return host input fun _ => .missing
    | none => throw (IO.userError "the input is not UTF-8")
  | _ => return host "" fun _ => .missing

end DynamicLisp.Main

/-- Runs the command with the arguments of the process. -/
def main (argv : List String) : IO UInt32 := do
  let report := DynamicLisp.Command.run (← DynamicLisp.Main.host argv) argv
  IO.print report.output
  IO.eprint report.diagnostics
  match report.outcome with
  | .ok status => return status.toUInt32
  | .error f =>
    IO.eprintln f.message
    return 1
