import Splice.Grammar.Terminal
import Splice.Text.Digit

/-!
# Lexemes

The shapes of lexemes. A `Shape` looks at the text from a position on and tells how many
characters a lexeme of its kind takes there, if one starts there; this number is never zero. The
first shape of `Lexeme.shapes` that matches decides, so the order of the list is part of the
language: an interpolated literal comes before the name with which it would start, a number with
a fraction before the number without, and a comment before the slash.

* `Quoted.tail`: how far a quoted literal reaches behind its opening quote.
* `Lexeme.first?`: the kind and the length of the lexeme at the start of a text.
-/

namespace Splice

/-- The length of the lexeme of some kind at the start of a text. -/
abbrev Shape := Text → Option Nat

namespace Quoted

/-- The number of characters up to and including the closing `quote`. A backslash takes the next
character with it, provided that this may be `escaped`. -/
def tail (escaped : CodePoint → Bool) (quote : CodePoint) : Shape
  | [] => none
  | ['\\'] => none
  | '\\' :: c :: rest => if escaped c then (tail escaped quote rest).map (· + 2) else none
  | c :: rest => if c = quote then some 1 else (tail escaped quote rest).map (· + 1)

end Quoted

/-- The length up to and including the first occurrence of `mark` in a text. -/
def lengthThrough (mark : Text) : Shape
  | [] => none
  | c :: rest =>
    if mark.isPrefixOf (c :: rest) then some mark.length
    else (lengthThrough mark rest).map (· + 1)

/-- The ASCII letters and the underscore begin a name. -/
def isNameStart (c : CodePoint) : Bool := c.isAlpha || c = '_'

/-- A name goes on with these and the ASCII digits. -/
def isNamePart (c : CodePoint) : Bool := isNameStart c || c.isDigit

/-- The number of characters at the start of a text with a property. -/
def lengthWhile (p : CodePoint → Bool) (t : Text) : Nat := (t.takeWhile p).length

namespace Lexeme

/-- A backslash in a literal may stand before any character but a line feed. -/
def isEscapable (c : CodePoint) : Bool := c ≠ '\n'

/-- A name, or a keyword. -/
def name : Shape
  | c :: rest => if isNameStart c then some (1 + lengthWhile isNamePart rest) else none
  | [] => none

/-- A string between double quotes. -/
def string : Shape
  | '"' :: rest => (Quoted.tail isEscapable '"' rest).map (1 + ·)
  | _ => none

/-- A string between double quotes behind the letter `i` or `f`. -/
def interpolated : Shape
  | c :: rest => if c = 'i' ∨ c = 'f' then (string rest).map (1 + ·) else none
  | [] => none

/-- A literal between apostrophes, which holds something. -/
def character : Shape
  | '\'' :: '\'' :: _ => none
  | '\'' :: rest => (Quoted.tail isEscapable '\'' rest).map (1 + ·)
  | _ => none

/-- A string between grave accents, without escapes. -/
def rawString : Shape
  | '`' :: rest => (lengthThrough ['`'] rest).map (1 + ·)
  | _ => none

/-- A row of decimal digits. -/
def integer (t : Text) : Option Nat :=
  match lengthWhile isDecimal t with
  | 0 => none
  | n => some n

/-- The length of the exponent at the start of a text, zero if there is none. -/
def exponentLength : Text → Nat
  | c :: rest =>
    if c = 'e' ∨ c = 'E' then
      match rest with
      | sign :: digits =>
        if sign = '+' ∨ sign = '-' then (integer digits).elim 0 (2 + ·)
        else (integer rest).elim 0 (1 + ·)
      | [] => 0
    else 0
  | [] => 0

/-- Digits, a point, digits, and possibly an exponent. -/
def decimal (t : Text) : Option Nat := do
  let whole ← integer t
  match t.drop whole with
  | '.' :: rest =>
    let fraction ← integer rest
    some (whole + 1 + fraction + exponentLength (rest.drop fraction))
  | _ => none

/-- The blanks between tokens. -/
def isSpace (c : CodePoint) : Bool := c = ' ' ∨ c = '\t' ∨ c = '\x0c' ∨ c = '\r' ∨ c = '\n'

/-- A row of blanks. -/
def blanks (t : Text) : Option Nat :=
  match lengthWhile isSpace t with
  | 0 => none
  | n => some n

/-- From two slashes to the end of the line, which does not belong to the comment. -/
def lineComment : Shape
  | '/' :: '/' :: rest => some (2 + lengthWhile (· ≠ '\n') rest)
  | _ => none

/-- From slash and star to the first star and slash. -/
def blockComment : Shape
  | '/' :: '*' :: rest => (lengthThrough ['*', '/'] rest).map (2 + ·)
  | _ => none

/-- A lexeme with a fixed spelling. -/
def spelled (spelling t : Text) : Option Nat :=
  if spelling.isPrefixOf t then some spelling.length else none

/-- What a lexeme is to the grammar. -/
inductive Class
  /-- A token of the grammar. -/
  | token (t : Terminal)
  /-- Blanks and comments, which the grammar does not see. -/
  | trivia
deriving DecidableEq, Inhabited

/-- The kinds of lexemes in the order in which they are tried. -/
def shapes : List (Class × Shape) :=
  [(.token .interpolatedLit, interpolated), (.token .charLit, character),
   (.token .floatLit, decimal), (.token .name, name), (.trivia, blockComment),
   (.token .stringLit, string), (.trivia, blanks), (.trivia, lineComment),
   (.token .rawStringLit, rawString), (.token .intLit, integer)] ++
    Mark.all.map fun m => (.token (.mark m), spelled m.text)

/-- A name that is spelled like a keyword is the keyword. -/
def reclassify (t : Text) : Class → Class
  | .token .name => .token ((Keyword.ofText? t).elim .name .keyword)
  | c => c

/-- The class and the length of the lexeme at the start of a text. -/
def first? (t : Text) : Option (Class × Nat) :=
  shapes.findSome? fun (c, shape) => (shape t).map fun n => (reclassify (t.take n) c, n)

/-- The kinds of lexemes that the lexer itself tells apart: all but the keywords. -/
def kinds : List Terminal := Mark.all.map .mark ++ Terminal.lexical

end Lexeme

end Splice
