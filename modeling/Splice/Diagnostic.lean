import Splice.Source.Span

/-!
# Diagnostics

What the library reports about a source: a message for people, a code for tools, and the span it
is about. The faults of interpolated literals form the closed family `Fault`; each has a code and
a stable tag that opens its message.
-/

namespace Splice

/-- The ways in which a literal can be wrong. -/
inductive Fault
  /-- A dollar sign that begins no escape. -/
  | invalidEscape
  /-- A group without its closing parenthesis. -/
  | unbalancedGroup
  /-- A group whose text is neither a type nor an expression. -/
  | invalidGroupContent
  /-- An interpolated literal outside an argument list. -/
  | illegalContext
  /-- A host escape or character literal that does not decode. -/
  | invalidLiteral
deriving DecidableEq, Inhabited

namespace Fault

/-- All faults. -/
def all : List Fault :=
  [.invalidEscape, .unbalancedGroup, .invalidGroupContent, .illegalContext, .invalidLiteral]

/-- The code of a fault in a diagnostic. -/
def code : Fault → String
  | invalidEscape => "InvalidEscape"
  | unbalancedGroup => "UnbalancedGroup"
  | invalidGroupContent => "InvalidGroupContent"
  | illegalContext => "IllegalContext"
  | invalidLiteral => "InvalidLiteral"

/-- The tag that opens the message of a fault. -/
def tag : Fault → String
  | invalidEscape => "E-INTERP-INVALID-ESCAPE"
  | unbalancedGroup => "E-INTERP-UNBALANCED-GROUP"
  | invalidGroupContent => "E-INTERP-GROUP-CONTENT"
  | illegalContext => "E-INTERP-CONTEXT"
  | invalidLiteral => "E-INTERP-LITERAL"

/-- The fault with a code. -/
def ofCode? (code : String) : Option Fault := all.find? fun f => f.code == code

theorem ofCode?_code (f : Fault) : ofCode? f.code = some f := by cases f <;> decide

/-- The message of a fault with its tag in front. -/
def message (f : Fault) (text : Text) : Text := f.tag ++ ": " ++ text

end Fault

/-- A report about a source. -/
structure Diagnostic where
  message : Text
  code : Option String := none
  /-- Which part of the work reports. -/
  phase : Option String := none
  severity : String := "error"
  span : Span := {}
  notes : List Text := []
deriving DecidableEq, Inhabited

namespace Diagnostic

/-- The fault that a diagnostic's code names, if it names one. -/
def fault? (d : Diagnostic) : Option Fault := d.code.bind Fault.ofCode?

/-- Whether a diagnostic is an error rather than advice. -/
def isError (d : Diagnostic) : Bool := d.severity == "error"

/-- The error for a fault of an interpolated literal. -/
def ofFault (f : Fault) (text : Text) (span : Span) (notes : List Text := []) : Diagnostic :=
  { message := f.message text, code := some f.code, phase := some "interpolation", span, notes }

end Diagnostic

end Splice
