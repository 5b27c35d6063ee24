import Splice.Failure
import Splice.Grammar.Token
import Splice.Literal.Constant
import Splice.Literal.Escape
import Splice.Literal.Interpolation
import Splice.Text.Digit

/-!
# Values of literals

What a literal token stands for. The lexer has already seen that the token has the shape of its
kind; a value may still be missing, because an escape is unknown, a character literal does not
hold one character, or an integer is too long to be read.
-/

namespace Splice

/-- Why a literal of the right shape has no value. -/
inductive LiteralFault
  /-- An escape that does not decode, and its backslash. -/
  | escape (fault : EscapeFault) (loc : Loc)
  /-- A character literal that holds no or several characters. -/
  | notOneCharacter (loc : Loc)
  /-- An integer with more digits than are read. -/
  | tooManyDigits (count : Nat)
deriving DecidableEq, Inhabited

namespace LiteralFault

/-- Where and how a fault is reported, or the failure that it is. -/
def report : LiteralFault → Except Failure (Text × Loc)
  | escape fault loc => .ok (fault.message, loc)
  | notOneCharacter loc => .ok ("character literal must hold exactly one character", loc)
  | tooManyDigits count => .error (.integerTooLong count)

end LiteralFault

/-- A result that depends on the values of literals. -/
abbrev Decoded := Except LiteralFault

namespace Token

/-- The text of a token between its delimiters, the first of which takes `width` characters. -/
def inner (token : Token) (width : Nat) : Text := (token.text.drop width).dropLast

/-- The text between the quotes, decoded. -/
def decoded (token : Token) (width : Nat) : Decoded PlacedText :=
  match Escape.decode (token.inner width) (token.loc.right width) with
  | .ok body => .ok body
  | .error (fault, loc) => .error (.escape fault loc)

end Token

namespace Constant

/-- Integers of more digits are not read. -/
def maxIntegerDigits : Nat := 4300

/-- The value of an integer. Leading zeros count as digits. -/
def ofInteger (token : Token) : Decoded Constant :=
  if maxIntegerDigits < token.text.length then .error (.tooManyDigits token.text.length)
  else .ok (.int (decimalValue token.text))

/-- The value of an exponent with its letter; without one it is zero. -/
def exponentValue : Text → Int
  | _ :: '-' :: digits => -(decimalValue digits : Int)
  | _ :: '+' :: digits => decimalValue digits
  | _ :: digits => decimalValue digits
  | [] => 0

/-- The value of a number with a fraction, rounded to the nearest representable one. -/
def ofFraction (token : Token) : Decoded Constant :=
  let whole := token.text.takeWhile isDecimal
  let rest := (token.text.dropWhile isDecimal).drop 1
  let fraction := rest.takeWhile isDecimal
  let exponent := exponentValue (rest.dropWhile isDecimal)
  .ok (.float (.ofDecimal false (decimalValue (whole ++ fraction)) (exponent - fraction.length)))

/-- The value of a string. -/
def ofString (token : Token) : Decoded Constant := do
  let body ← token.decoded 1
  return .string body.text

/-- The value of a string without escapes. -/
def ofRawString (token : Token) : Decoded Constant := .ok (.string (token.inner 1))

/-- The value of a character literal. -/
def ofCharacter (token : Token) : Decoded Constant := do
  let body ← token.decoded 1
  match body.text with
  | [c] => return .char [c]
  | _ => throw (.notOneCharacter token.loc)

end Constant

namespace Interpolation

/-- The kind that the first letter of a literal tells. -/
def kindOf (t : Text) : InterpolationKind :=
  if t.head? = some InterpolationKind.interspersed.letter then .interspersed else .formatted

/-- The literal with its body decoded. -/
def ofToken (token : Token) : Decoded Interpolation := do
  let body ← token.decoded 2
  return { loc := token.loc, kind := kindOf token.text, body }

end Interpolation

end Splice
