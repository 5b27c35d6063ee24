import Splice.Grammar.Lexeme
import Splice.Grammar.Token

/-!
# The lexer

Cuts a source into its tokens. It goes through the text once; behind the first character of a
lexeme the others are passed over. Blanks and comments leave no token. Where no lexeme starts, the
tokens end with the place of that fault, since a reader may have refused one of them before.
-/

namespace Splice

/-- A place where no lexeme starts, and the character there. -/
structure LexicalFault where
  char : CodePoint
  /-- Offset of the character. -/
  offset : Nat
  loc : Loc
deriving DecidableEq, Inhabited

/-- The tokens of a text, up to the first place where no lexeme starts. -/
structure Lexed where
  tokens : List Token
  fault : Option LexicalFault
deriving DecidableEq, Inhabited

namespace Lexed

/-- One more token in front. -/
def cons (token : Token) (l : Lexed) : Lexed := { l with tokens := token :: l.tokens }

/-- Cuts a text that starts at an offset and a place, and of which the first `pending` characters
belong to a lexeme that was found already. -/
def scan : Text → (pending offset : Nat) → Loc → Lexed
  | [], _, _, _ => ⟨[], none⟩
  | c :: rest, pending + 1, offset, loc => scan rest pending (offset + 1) (loc.advance c)
  | c :: rest, 0, offset, loc =>
    match Lexeme.first? (c :: rest) with
    | none => ⟨[], some ⟨c, offset, loc⟩⟩
    | some (kind, length) =>
      let later := scan rest (length - 1) (offset + 1) (loc.advance c)
      match kind with
      | .trivia => later
      | .token terminal => later.cons ⟨terminal, (c :: rest).take length, offset, loc⟩

/-- The tokens of a source. -/
def ofText (source : Text) : Lexed := scan source 0 0 .start

end Lexed

end Splice
