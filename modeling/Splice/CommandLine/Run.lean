import Splice.CommandLine.Console
import Splice.CommandLine.FileTree
import Splice.CommandLine.Options
import Splice.CommandLine.Report
import Splice.Parse.Source
import Splice.Rewrite.Program

/-!
# The program

Every source is read, parsed and rewritten on its own, and what was found is printed: the changed
argument lists to the standard output, the diagnostics to the error output. For tools all is printed
at the end; for people, what was found in a source is printed before the next one is read. A source
that cannot be read is reported like any other fault. The exit code tells whether there was an
error.

* `lowerFile`: what is found in one source.
* `run`: what the program prints, and its exit code.
-/

namespace Splice

/-- What the program depends on outside of itself: the files, and the depth of the stack. -/
structure System where
  read : ReadFile
  /-- Whether the stack is deep enough to parse and to rewrite a source. -/
  fits : Text → Bool := fun _ => true
  /-- Whether the stack is deep enough to write a node. -/
  fitsNode : Node → Bool := fun _ => true

/-- The text of a file in which every line ends with a line feed alone. -/
def normalizeLines : Text → Text
  | [] => []
  | '\r' :: '\n' :: rest => '\n' :: normalizeLines rest
  | c :: rest => (if c = '\r' then '\n' else c) :: normalizeLines rest

/-- The text in the bytes of a file. -/
def decodeFile (bytes : ByteArray) : Except Failure Text :=
  match String.fromUTF8? bytes with
  | some s => .ok (normalizeLines s)
  | none => .error .notText

/-- The report of a file that cannot be read. -/
def FileFault.diagnostic (fault : FileFault) : Diagnostic :=
  { message := "cannot read source: " ++ fault.message, phase := some "driver" }

/-- What is found in the text of a file. -/
def lowerText (file : Text) (source : Text) : Except Failure Log := do
  match ← readSource (some file) source with
  | .error d => return { diagnostics := [d] }
  | .ok program =>
    let (log, result) := (Rewriter.program { file := some file } program).run {}
    let _ ← result
    return log

namespace System

variable (system : System)

/-- What is found in a file. -/
def lowerFile (name : Text) : Except Failure Report := do
  if !FilePath.isUsable name then throw .notFileName
  match system.read name with
  | .error fault => return ⟨name, { diagnostics := [fault.diagnostic] }⟩
  | .ok bytes =>
    let source ← decodeFile bytes
    if !system.fits source then throw .stackExhausted
    return ⟨name, ← lowerText name source⟩

/-- Writes a node. -/
def writeNode (n : Node) : Except Failure Text :=
  if system.fitsNode n then .ok n.text else .error .stackExhausted

end System

/-- The name of a source as it is used and shown. -/
def sourceName (arg : Text) : Text := FilePath.normalize arg

/-! ## Runs -/

namespace Run

variable (system : System)

/-- Prints what was found in a source. -/
def printReport (r : Report) : Console Unit := do
  r.log.sites.forM fun s => do
    let line ← Console.ofFailing (Report.siteLine system.writeNode r.source s)
    Console.print line
  r.log.diagnostics.forM fun d => Console.printError (Report.diagnosticLines r.source d)

/-- Prints what is found in a source for people, and tells whether there was an error. -/
def lines (arg : Text) : Console Bool := do
  let r ← Console.ofFailing (system.lowerFile (sourceName arg))
  printReport system r
  return r.hasErrors

/-- What is found in a source for tools. -/
def findings (arg : Text) : Except Failure Findings := do
  let r ← system.lowerFile (sourceName arg)
  r.findings system.writeNode

/-- Rewrites the sources. -/
def lower (sources : List Text) : (json : Bool) → Console Nat
  | false => do
    let failed ← sources.mapM (lines system)
    return exitCode failed
  | true => do
    let findings ← Console.ofFailing (sources.mapM (findings system))
    Console.print (Findings.json findings).text
    return exitCode (findings.map Findings.failed)

/-- The line that every message about the arguments begins with. -/
def usage : Text := "usage: interpc [-h] [--json] source [source ...]\n"

/-- The answer to a request for help. -/
def help : Text :=
  usage ++ "\nLower interpolated string literals in host source files\n" ++
    "\npositional arguments:\n" ++
    "  source      Path(s) to host source file(s)\n" ++
    "\noptions:\n" ++
    "  -h, --help  show this help message and exit\n" ++
    "  --json      Emit lowered call sites and diagnostics as JSON"

end Run

/-- Runs the program with its arguments. -/
def run (system : System) (args : List Text) : Console Nat := do
  match Request.ofArguments args with
  | .error e =>
    Console.printError (Run.usage ++ "interpc: error: " ++ e.message)
    return 2
  | .ok .help =>
    Console.print Run.help
    return 0
  | .ok (.lower sources json) => Run.lower system sources json

end Splice
