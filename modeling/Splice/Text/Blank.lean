import Splice.Text.Basic

/-!
# Blank characters

Unicode white space, together with the four ASCII separators `U+001C` to `U+001F`. This is the
set that trimming removes and that an escape diagnostic calls "whitespace"; the blanks between
host tokens are a smaller set, which the lexer defines.

* `Text.strip`: a text without the blanks at its ends.
* `Text.isBlankText`: a text of nothing but blanks.
-/

namespace Splice

/-- White space in the Unicode sense, with the ASCII information separators. -/
def isBlank (c : CodePoint) : Bool :=
  let n := c.toNat
  (0x09 ≤ n && n ≤ 0x0d) || (0x1c ≤ n && n ≤ 0x20) || n == 0x85 || n == 0xa0 || n == 0x1680 ||
    (0x2000 ≤ n && n ≤ 0x200a) || n == 0x2028 || n == 0x2029 || n == 0x202f || n == 0x205f ||
    n == 0x3000

namespace Text

/-- The text without the blanks at its two ends. -/
def strip (t : Text) : Text :=
  ((t.dropWhile isBlank).reverse.dropWhile isBlank).reverse

/-- Nothing but blanks. -/
def isBlankText (t : Text) : Bool := t.all isBlank

end Text

end Splice
