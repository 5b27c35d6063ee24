import Splice.Text.Printable

/-!
# Displayed texts

How a diagnostic shows a text of the source: between quotes, on one line, with every character
that cannot be printed written as an escape.
-/

namespace Splice

/-- The lowercase hexadecimal digits of `n`, at least `width` of them. -/
def hexDigits (width n : Nat) : Text :=
  let digits := Nat.toDigits 16 n
  Text.ofChars (List.replicate (width - digits.length) '0' ++ digits)

namespace Text

/-- The quote around a displayed text: an apostrophe, unless the text has one and no `"`. -/
def displayQuote (t : Text) : CodePoint :=
  if t.contains '\'' && !t.contains '"' then '"' else '\''

/-- One character of a displayed text inside `quote`. A character that cannot be printed is
written by its code, in the shortest of the forms with two, four and eight digits. -/
def displayChar (quote c : CodePoint) : Text :=
  if c = quote ∨ c = '\\' then ['\\', c]
  else if c = '\n' then ['\\', 'n']
  else if c = '\t' then ['\\', 't']
  else if c = '\r' then ['\\', 'r']
  else if isPrintable c then [c]
  else if c.toNat < 0x100 then '\\' :: 'x' :: hexDigits 2 c.toNat
  else if c.toNat < 0x10000 then '\\' :: 'u' :: hexDigits 4 c.toNat
  else '\\' :: 'U' :: hexDigits 8 c.toNat

/-- The text as a diagnostic shows it, quotes included. -/
def display (t : Text) : Text :=
  let quote := t.displayQuote
  quote :: t.flatMap (displayChar quote) ++ [quote]

end Text

end Splice
