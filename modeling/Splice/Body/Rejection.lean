import Splice.Diagnostic
import Splice.Failure
import Splice.Literal.Interpolation
import Splice.Text.Blank
import Splice.Text.Quoted

/-!
# Rejected bodies

The first thing that is wrong with a literal rejects it as a whole. A rejection names its cause and
the offsets of the body that it is about.

* `Cause.message`: the wording of each cause.
* `Attempt`: a result, unless the literal is rejected or the run fails.
-/

namespace Splice

/-- What is not closed before the body ends. -/
inductive Unclosed
  | string | character | rawString | blockComment | group
deriving DecidableEq, Inhabited

namespace Unclosed

/-- The wording of each case. -/
def message : Unclosed → Text
  | string => "unterminated string literal inside '$(' group"
  | character => "unterminated character literal inside '$(' group"
  | rawString => "unterminated raw string inside '$(' group"
  | blockComment => "unterminated block comment inside '$(' group"
  | group => "'$(' group is missing its closing ')'"

end Unclosed

/-- Why a literal is rejected. -/
inductive Cause
  /-- A dollar sign with nothing behind it. -/
  | dollarAtEnd
  /-- A dollar sign before a character that continues no escape. -/
  | dollarBefore (c : CodePoint)
  | unclosed (what : Unclosed)
  /-- A group that is neither a type nor an expression. -/
  | neither (raw : Text)
  /-- A format string as an argument of a mixin. -/
  | formattedMixin
  /-- A literal in a place where arguments cannot stand. -/
  | misplaced (kind : InterpolationKind) (place : Text)
deriving DecidableEq, Inhabited

namespace Cause

/-- The fault that the cause is a case of. -/
def fault : Cause → Fault
  | dollarAtEnd | dollarBefore _ => .invalidEscape
  | unclosed _ => .unbalancedGroup
  | neither _ => .invalidGroupContent
  | formattedMixin | misplaced _ _ => .illegalContext

/-- How a character is shown. -/
def showChar (c : CodePoint) : Text :=
  if isBlank c then "whitespace" else Text.display [c]

/-- The wording of each cause. -/
def message : Cause → Text
  | dollarAtEnd => "'$' at end of literal; write '$$' for a literal dollar sign"
  | dollarBefore c =>
    "'$' must be followed by '$', an identifier or '(', found " ++ showChar c
  | unclosed what => what.message
  | neither raw =>
    "'$(" ++ raw ++ ")' is neither a complete type nor a complete expression"
  | formattedMixin =>
    "format-string literal cannot be passed to 'mixin'; use an i\"...\" literal"
  | misplaced kind place =>
    kind.label ++ " literal is not allowed as " ++ place ++
      "; it may only appear directly in a call, template or mixin argument list"

end Cause

/-- A cause, with the offsets of the body that it is about. Without a start the whole literal is
meant. The anchor is the place of a dollar sign that a note points at. -/
structure Rejection where
  cause : Cause
  start : Option Int := none
  stop : Option Int := none
  anchor : Option Int := none
  notes : List Text := []
deriving DecidableEq, Inhabited

/-- A result, unless the literal is rejected or the run fails. -/
abbrev Attempt (α : Type) := ExceptT Rejection (Except Failure) α

namespace Attempt

variable {α : Type}

/-- Rejects the literal. -/
def reject (r : Rejection) : Attempt α := ExceptT.mk (.ok (.error r))

/-- What may fail but rejects nothing. -/
def ofFailing (x : Except Failure α) : Attempt α := ExceptT.mk (x.map .ok)

/-- What may be rejected but does not fail. -/
def ofRejecting (x : Except Rejection α) : Attempt α := ExceptT.mk (.ok x)

end Attempt

end Splice
