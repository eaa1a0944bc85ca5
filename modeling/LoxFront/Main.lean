import LoxFront.CommandLine.Run

/-!
# The executable

Collects what the command needs from the system, and writes its response.
-/

namespace LoxFront.CommandLine

/-- All bytes of the standard input. -/
partial def readAll (stream : IO.FS.Stream) (soFar : ByteArray) : IO ByteArray := do
  let chunk ← stream.read 65536
  if chunk.isEmpty then return soFar else readAll stream (soFar ++ chunk)

/-- The input that the arguments ask for: the bytes of the standard input, and of the file if it can
be read. -/
def readInput (args : List String) : IO (List UInt8 × Option FileEntry) := do
  match Request.ofArguments args with
  | .ok (.job job) =>
    if job.input = "-" then
      let bytes ← readAll (← IO.getStdin) ByteArray.empty
      return (bytes.toList, none)
    else
      try
        let bytes ← IO.FS.readBinFile job.input
        return ([], some (.file bytes.toList))
      catch _ => return ([], none)
  | _ => return ([], none)

/-- The values of the environment variables that hold options. -/
def readEnvironment : IO (String → Option String) := do
  let names := [Options.fileVariable, Options.maxErrorsVariable, Options.keepPlaceholdersVariable]
  let values ← names.mapM fun name => do return (name, ← IO.getEnv name)
  return fun name => (values.lookup name).join

end LoxFront.CommandLine

open LoxFront.CommandLine in
/-- Runs the command with its arguments. -/
def main (args : List String) : IO UInt32 := do
  let (standardInput, file) ← readInput args
  let environment ← readEnvironment
  match run ⟨fun _ => file, standardInput, environment⟩ args with
  | .ok response =>
    (← IO.getStderr).putStr response.errors
    (← IO.getStdout).putStr response.output
    return response.status.code.toUInt32
  | .error e =>
    (← IO.getStderr).putStr ("Error: " ++ e.message ++ "\n")
    return Status.invalidInput.code.toUInt32
