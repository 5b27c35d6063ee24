import Splice.Literal.Escape
import Splice.Text.Quoted

/-!
# Writing literals

The written form of a text as a host literal. The delimiter, the backslash and the control
characters are escaped, so that the literal stands on one line whatever the text holds.
-/

namespace Splice

/-- The written form of one character between the delimiters. A character is escaped as the
delimiter if it is all of it. -/
def quoteChar (delimiter : Text) (c : CodePoint) : Text :=
  if [c] = delimiter then ['\\', c]
  else match c with
    | '\\' => ['\\', '\\']
    | '\n' => ['\\', 'n']
    | '\t' => ['\\', 't']
    | '\r' => ['\\', 'r']
    | '\x00' => ['\\', '0']
    | _ => if c.toNat < 0x20 ∨ c.toNat = 0x7f then '\\' :: 'x' :: hexDigits 2 c.toNat else [c]

/-- The text as a literal between delimiters. -/
def quoteWith (delimiter t : Text) : Text :=
  delimiter ++ t.flatMap (quoteChar delimiter) ++ delimiter

/-- The text as a string literal. -/
def quote (t : Text) : Text := quoteWith ['"'] t

/-- The text as a character literal. -/
def quoteCharacter (t : Text) : Text := quoteWith ['\''] t

end Splice
