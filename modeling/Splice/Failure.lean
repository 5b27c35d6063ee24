import Splice.Syntax.Kind
import Splice.Text.Quoted

/-!
# Failures

What stops a run without being a fault of one literal that a diagnostic could report. Trees that
the library's own parser built cause none of those that are about nodes; a tree from elsewhere may
have any node at any place.
-/

namespace Splice

/-- Why a run stops. -/
inductive Failure
  /-- An integer literal with more digits than are read. -/
  | integerTooLong (digits : Nat)
  /-- A name of a body that was given no node. -/
  | unresolvedName
  /-- A group of a body that was given no role or no node. -/
  | unclassifiedGroup
  /-- Literals inside literals, deeper than they are followed. -/
  | nestingTooDeep
  /-- A file that does not hold text. -/
  | notText
  /-- A text that no file can be named. -/
  | notFileName
  /-- A line that the standard output cannot take. -/
  | notPrintable
  /-- A source or a tree that is nested deeper than the stack. -/
  | stackExhausted
  /-- A node that is rewritten as an expression and is none. -/
  | notExpression (kind : NodeKind)
  /-- A node that is rewritten as a statement and is none. -/
  | notStatement (kind : NodeKind)
  /-- A node that is written as an expression and has no source form. -/
  | notWritable (kind : NodeKind)
  /-- A node without a part that is looked for in it. -/
  | lacksPart (kind : NodeKind) (part : NodePart)
  /-- A type that is made of another one, without the other one. -/
  | lacksInnerType
  /-- A binary operator that is written and has no binding strength. -/
  | unknownOperator (spelling : Text)
deriving DecidableEq, Inhabited

namespace Failure

/-- The wording of each failure. -/
def message : Failure → Text
  | integerTooLong digits =>
    "Exceeds the limit (4300 digits) for integer string conversion: value has " ++
      toString digits ++ " digits; use sys.set_int_max_str_digits() to increase the limit"
  | unresolvedName => "interpolation lowering bug: unresolved name reference"
  | unclassifiedGroup => "interpolation lowering bug: unclassified group"
  | nestingTooDeep => "interpolated literals are nested too deeply"
  | notText => "the file is not encoded as UTF-8"
  | notFileName => "no file can have this name"
  | notPrintable => "surrogates cannot be encoded as UTF-8"
  | stackExhausted => "maximum recursion depth exceeded"
  | notExpression kind => "unexpected expression " ++ kind.label
  | notStatement kind => "unexpected statement " ++ kind.label
  | notWritable kind => "cannot format expression node " ++ kind.label
  | lacksPart kind part => "'" ++ kind.label ++ "' object has no attribute '" ++ part.label ++ "'"
  | lacksInnerType => "list index out of range"
  | unknownOperator spelling => Text.display spelling

end Failure

end Splice
