import Splice.Grammar.Lexer
import Splice.Text.Blank
import Splice.Text.Quoted

/-!
# Syntax errors

A text that cannot be read has a token that cannot stand where it is, or a character with which no
token starts. The whole message of an error has several lines; its headline is the first of them.

* `SyntaxError.message`: the whole message.
* `SyntaxError.headline`: its first line.
-/

namespace Splice

/-- Why a text cannot be read. -/
inductive SyntaxError
  /-- A token that cannot stand where it is, and the terminals that can. -/
  | token (found : Token) (expected : List Terminal)
  /-- A character that starts no token, and the token before it. -/
  | character (found : LexicalFault) (previous : Option Token)
deriving DecidableEq, Inhabited

namespace SyntaxError

/-- Where the error is. -/
def loc : SyntaxError → Loc
  | token found _ => found.loc
  | character found _ => found.loc

/-- The offset of the error. -/
def offset : SyntaxError → Nat
  | token found _ => found.offset
  | character found _ => found.offset

/-- How messages show a token. -/
def showToken (t : Token) : Text :=
  "Token('" ++ t.terminal.label ++ "', " ++ Text.display t.text ++ ")"

/-- The terminals that could stand at the error, one on a line. If there are none, one line is
left empty. -/
def showExpected (kinds : List Terminal) : Text :=
  let bullet := "\n\t* "
  "Expected one of: " ++ bullet ++ bullet.intercalate (Terminal.sortedLabels kinds) ++ "\n"

/-- As many characters on each side of an error are shown. -/
def contextWidth : Nat := 40

/-- The characters of a line around an offset, and below them a mark at the offset. -/
def showContext (source : Text) (offset : Nat) : Text :=
  let near : Text := (source.take offset).drop (offset - contextWidth)
  let isInLine (c : CodePoint) : Bool := c ≠ '\n'
  let before : Text := (near.reverse.takeWhile isInLine).reverse
  let after : Text := ((source.drop offset).take contextWidth).takeWhile isInLine
  let indent : Text := List.replicate before.expandedLength ' '
  before ++ after ++ "\n" ++ indent ++ "^\n"

/-- All that is said about an error in `source`. -/
def fullText (source : Text) : SyntaxError → Text
  | token found expected =>
    "Unexpected token " ++ showToken found ++ " at line " ++ toString found.loc.line ++
      ", column " ++ toString found.loc.column ++ ".\n" ++ showExpected expected
  | character found previous =>
    "No terminal matches '" ++ [found.char] ++
      "' in the current parser context, at line " ++ toString found.loc.line ++ " col " ++
      toString found.loc.column ++ "\n\n" ++ showContext source found.offset ++
      showExpected Lexeme.kinds ++
      match previous with
      | some t => "\nPrevious tokens: " ++ showToken t ++ "\n"
      | none => ""

/-- The message of an error in `source`, without blanks around it. -/
def message (source : Text) (e : SyntaxError) : Text := Text.strip (e.fullText source)

/-- The first line of the message. -/
def headline (source : Text) (e : SyntaxError) : Text :=
  Text.firstLine (Text.strip (e.fullText source))

end SyntaxError

end Splice
