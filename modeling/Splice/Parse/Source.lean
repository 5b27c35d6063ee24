import Splice.Diagnostic
import Splice.Parse.Tree

/-!
# Sources and their diagnostics

A source file is read as a program, or what is wrong with it is reported in one diagnostic.
-/

namespace Splice

/-- The part of the work that reports what is wrong with a source. -/
def parserPhase : String := "parser"

namespace SyntaxError

/-- The report of a syntax error. -/
def diagnostic (file : Option Text) (source : Text) (e : SyntaxError) : Diagnostic :=
  { message := e.message source, phase := some parserPhase,
    span := (Span.ofLoc? (some e.loc)).inFile file }

end SyntaxError

namespace LiteralFault

/-- The report of a literal without a value. -/
def diagnostic (file : Option Text) (fault : LiteralFault) : Except Failure Diagnostic := do
  let (message, loc) ← fault.report
  return { message := Fault.invalidLiteral.message message,
           code := some Fault.invalidLiteral.code, phase := some parserPhase,
           span := (Span.ofLoc? (some loc)).inFile file }

end LiteralFault

/-- Reads the text of a file as a program. -/
def readSource (file : Option Text) (source : Text) :
    Except Failure (Except Diagnostic Program) :=
  match parseProgram source with
  | .ok program => .ok (.ok program)
  | .error (.shape e) => .ok (.error (e.diagnostic file source))
  | .error (.literal fault) => (fault.diagnostic file).map .error

end Splice
