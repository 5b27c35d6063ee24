import Splice.Parse.Tree

/-!
# Parsing fragments

The text of a group is offered to two parsers, one for types and one for expressions. A parser
does not fail on a text that it does not understand: it answers how far it came and what was
wrong. Other parsers than those of the host grammar can be put in their place.

* `FragmentParse.covers`: the text was understood up to blanks at its end.
* `FragmentParsers.host`: the parsers of the host grammar.
-/

namespace Splice

/-- What a parser made of a fragment: a node, or an error. -/
structure FragmentParse where
  node : Node := .missing
  /-- How much of the text was understood. A negative number counts from the end of the text. -/
  consumed : Int := 0
  error : Option Text := none
deriving Inhabited

namespace FragmentParse

/-- Whether the parser met no error. -/
def ok (p : FragmentParse) : Bool := p.error.isNone

/-- What is left of a text behind the part that was understood. -/
def rest (p : FragmentParse) (text : Text) : Text :=
  if 0 ≤ p.consumed then text.drop p.consumed.toNat
  else text.drop (text.length - (-p.consumed).toNat)

/-- The parser met no error, and only blanks are left. -/
def covers (p : FragmentParse) (text : Text) : Bool := p.ok && (p.rest text).isBlankText

/-- What the host grammar makes of a text, from the parser's result on it. -/
def ofResult (text : Text) : Except ParseError Node → Except Failure FragmentParse
  | .ok node => .ok { node, consumed := text.length }
  | .error (.shape e) => .ok { consumed := e.offset, error := some (e.headline text) }
  | .error (.literal fault) => do
    let (message, _) ← fault.report
    return { consumed := text.length, error := some (Text.firstLine (Text.strip message)) }

end FragmentParse

/-- Two parsers, for types and for expressions. -/
structure FragmentParsers where
  type : Text → Except Failure FragmentParse
  expr : Text → Except Failure FragmentParse

namespace FragmentParsers

/-- The parsers of the host grammar. -/
def host : FragmentParsers where
  type text := FragmentParse.ofResult text (parseType text)
  expr text := FragmentParse.ofResult text (parseExpr text)

end FragmentParsers

/-- Parses an expression that stands at `origin`. -/
def parseExprAt (origin : Loc) (text : Text) : Except ParseError Node :=
  (parseExpr text).map (Node.relocate origin)

/-- Parses a type that stands at `origin`. -/
def parseTypeAt (origin : Loc) (text : Text) : Except ParseError Node :=
  (parseType text).map (Node.relocate origin)

/-- Why a text is no single interpolated literal. -/
inductive LiteralSourceError
  | parse (e : ParseError)
  /-- The text is another expression. -/
  | otherExpression
deriving DecidableEq, Inhabited

/-- Parses a text that consists of one interpolated literal. -/
def parseInterpolation (text : Text) : Except LiteralSourceError Interpolation :=
  match parseExpr text with
  | .ok (.interpolation i) => .ok i
  | .ok _ => .error .otherExpression
  | .error e => .error (.parse e)

end Splice
