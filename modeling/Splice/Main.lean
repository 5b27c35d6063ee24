import Splice.CommandLine.Run

/-!
# The command line

Reads the files that the arguments name, runs the program on what was read, and prints.
-/

namespace Splice

/-- What an error of the system says about a file. -/
def FileFault.ofError : IO.Error → FileFault
  | .noFileOrDirectory .. => .missing
  | .inappropriateType _ _ details =>
    if notDirectory.message = details.capitalize then .notDirectory else .isDirectory
  | .permissionDenied _ _ details => .other details.capitalize
  | e => .other (toString e)

/-- Reads a file by its name. -/
def readFileNow (name : Text) : IO (Text × Except FileFault ByteArray) := do
  try
    return (name, .ok (← IO.FS.readBinFile (name.encode?.getD "")))
  catch e =>
    return (name, .error (.ofError e))

/-- The files that were read, and nothing else. -/
def readFrom (files : List (Text × Except FileFault ByteArray)) : ReadFile := fun name =>
  (files.lookup name).getD (.error .missing)

/-- Reads the files that a request names. -/
def filesOf (args : List Text) : IO (List (Text × Except FileFault ByteArray)) :=
  match Request.ofArguments args with
  | .ok (.lower sources _) => sources.mapM fun arg => readFileNow (sourceName arg)
  | _ => return []

end Splice

open Splice in
/-- The program. -/
def main (args : List String) : IO UInt32 := do
  let args := args.map Text.ofString
  let files ← filesOf args
  let outcome := run { read := readFrom files } args
  IO.print outcome.stdout
  IO.eprint outcome.stderr
  match outcome.result with
  | .ok code => return code.toUInt32
  | .error failure =>
    IO.eprintln failure.message.encodeEscaped
    return 1
