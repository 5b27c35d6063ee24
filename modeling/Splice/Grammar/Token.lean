import Splice.Grammar.Terminal
import Splice.Source.Loc

/-!
# Tokens

A token is a lexeme of the source with its kind and its place.
-/

namespace Splice

/-- A lexeme that the grammar sees. -/
structure Token where
  terminal : Terminal
  text : Text
  /-- Offset of the first character. -/
  offset : Nat
  loc : Loc
deriving DecidableEq, Inhabited

end Splice
