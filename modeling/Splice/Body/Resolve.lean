import Splice.Body.Rejection
import Splice.Body.Segment

/-!
# Resolving insertions

Every name and group of a body is given its node. A group is offered to both parsers. One that
only the type parser understands as a whole is a type; otherwise, one that the expression parser
understands as a whole is an expression, so a text that could be either is an expression.

* `Insertion.place`: where the locations of a group's text are in the source.
* `Insertion.resolveGroup`: the role and the node of a group.
* `Segment.resolve`: the segments with the nodes of their insertions.
* `Segment.questions`: what the parsers are asked on the way.
-/

namespace Splice

/-- Where the character at an offset of a body stands in the source. -/
abbrev Locate := Int → Loc

/-- The offsets at which the lines of a text start, from the offset `next` on, which is in the
line before them. -/
def lineStarts (next : Nat) : Text → List Nat
  | [] => []
  | c :: rest => if c = '\n' then (next + 1) :: lineStarts (next + 1) rest
    else lineStarts (next + 1) rest

namespace Insertion

/-- A location relative to the text of a group that starts at the offset `start` of the body, as a
location in the source. A line that the text does not have is left alone. -/
def place (raw : Text) (start : Nat) (locate : Locate) (loc : Loc) : Loc :=
  if 1 ≤ loc.line then
    match (0 :: lineStarts 0 raw)[(loc.line - 1).toNat]? with
    | some line => locate (start + 2 + line + loc.column - 1)
    | none => loc
  else loc

/-- What the parsers had to say about a group that neither of them understands. -/
def notes (raw : Text) (asType asExpr : FragmentParse) : List Text :=
  let exprNote :=
    match asExpr.error with
    | some [] | none =>
      if asExpr.covers raw then []
      else ["as an expression: unexpected text after offset " ++ toString asExpr.consumed]
    | some e => ["as an expression: " ++ e]
  let typeNote :=
    match asType.error with
    | some [] | none => []
    | some e => ["as a type: " ++ e]
  exprNote ++ typeNote

/-- The node of a group that is a type. It stands at the first character of the group's text. -/
def typeNode (raw : Text) (start : Nat) (locate : Option Locate) (type : Node) : Node :=
  match locate with
  | some locate => .typeArg (locate (start + 2)) (type.mapLoc (place raw start locate))
  | none => .typeArg (type.loc?.getD .start) type

/-- The node of a group that is an expression. -/
def exprNode (raw : Text) (start : Nat) (locate : Option Locate) (e : Node) : Node :=
  match locate with
  | some locate => e.mapLoc (place raw start locate)
  | none => e

/-- Finds out what a group is. -/
def resolveGroup (parsers : FragmentParsers) (locate : Option Locate) (raw : Text)
    (start stop : Nat) : Attempt Insertion := do
  let asType ← Attempt.ofFailing (parsers.type raw)
  let asExpr ← Attempt.ofFailing (parsers.expr raw)
  if asType.covers raw && !asExpr.covers raw then
    return .group raw start stop (some .type) (typeNode raw start locate asType.node)
  else if asExpr.covers raw then
    return .group raw start stop (some .expression) (exprNode raw start locate asExpr.node)
  else
    Attempt.reject
      { cause := .neither raw, start := some start, stop := some stop,
        notes := notes raw asType asExpr }

/-- Gives an insertion its node. A name stands behind its dollar sign. -/
def resolve (parsers : FragmentParsers) (locate : Option Locate) : Insertion → Attempt Insertion
  | name ident start stop _ =>
    let loc := locate.elim .start fun locate => locate (start + 1)
    return .name ident start stop (.name loc ident)
  | group raw start stop _ _ => resolveGroup parsers locate raw start stop

end Insertion

namespace Segment

/-- The segments with their insertions resolved, or the first group that neither parser
understands. -/
def resolve (parsers : FragmentParsers) (locate : Option Locate) :
    List Segment → Attempt (List Segment)
  | [] => return []
  | .insertion i :: rest => do
    let i ← i.resolve parsers locate
    let later ← resolve parsers locate rest
    return .insertion i :: later
  | segment :: rest => do
    let later ← resolve parsers locate rest
    return segment :: later

/-- What the parsers are asked while the segments are resolved, in order: the text of each group as
a type and then as an expression, until a group is refused or a parser fails. -/
def questions (parsers : FragmentParsers) : List Segment → List (Role × Text)
  | [] => []
  | .insertion (.group raw start stop _ _) :: rest =>
    match parsers.type raw with
    | .error _ => [(.type, raw)]
    | .ok _ =>
      let later := match (Insertion.resolveGroup parsers none raw start stop).run with
        | .ok (.ok _) => questions parsers rest
        | _ => []
      (.type, raw) :: (.expression, raw) :: later
  | _ :: rest => questions parsers rest

end Segment

end Splice
