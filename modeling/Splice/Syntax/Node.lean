import Splice.Failure
import Splice.Literal.Constant
import Splice.Literal.Interpolation
import Splice.Syntax.Operator

/-!
# Syntax trees

The abstract syntax of expressions, types, statements and programs. A node has the location of its
first token; parentheses around a whole expression leave no trace in it. Nodes are values: a pass
over a tree builds a new one.

All kinds of nodes are of one type, since a type may stand among arguments, and since a tree may
come from elsewhere than the library's own parser and have any node at any place. A part that may
be left out is the node `missing` where it is.

* `Node.mapLoc`: the same tree with every location mapped.
* `Node.relocate`: a tree that was read from a fragment, moved to where the fragment stands.
-/

namespace Splice

/-- The nodes of syntax trees. -/
inductive Node
  /-- What stands for a part that was left out. -/
  | missing
  | name (loc : Loc) (ident : Text)
  | literal (loc : Loc) (value : Constant)
  | unary (loc : Loc) (op : UnaryOp) (operand : Node)
  | binary (loc : Loc) (op : BinaryOp) (left right : Node)
  | call (loc : Loc) (callee : Node) (args : List Node)
  | member (loc : Loc) (value : Node) (ident : Text)
  | index (loc : Loc) (value offset : Node)
  /-- A template with its arguments, which may be types. -/
  | instantiate (loc : Loc) (template : Node) (args : List Node)
  /-- Code that is generated from its arguments. -/
  | mixin (loc : Loc) (args : List Node)
  /-- A type in the place of an argument. -/
  | typeArg (loc : Loc) (type : Node)
  | interpolation (literal : Interpolation)
  /-- A type. One that no source was read for has no location. The name of a type that is made of
  another one says how, and its first argument is the other one; an array may have a size. -/
  | type (loc : Option Loc) (ident : Text) (isTemplate : Bool) (args : List Node) (size : Node)
  | declare (loc : Loc) (ident : Text) (type value : Node)
  | giveBack (loc : Loc) (value : Node)
  | evaluate (loc : Loc) (value : Node)
  | block (loc : Loc) (body : List Node)
  /-- A function. Its body is a block, which stands at its opening brace. -/
  | function (loc : Loc) (ident : Text) (params : List Node) (result body : Node)
  /-- A parameter of a function. -/
  | param (ident : Text) (type default : Node)
  /-- The statements of a source. -/
  | program (body : List Node)
deriving Inhabited

/-- The statements of a source in order. -/
abbrev Program := List Node

namespace Node

/-- The kind of the node. -/
def kind : Node → NodeKind
  | missing => .missing
  | name .. => .name
  | literal .. => .literal
  | unary .. => .unary
  | binary .. => .binary
  | call .. => .call
  | member .. => .member
  | index .. => .index
  | instantiate .. => .instantiate
  | mixin .. => .mixin
  | typeArg .. => .typeArg
  | interpolation _ => .interpolation
  | type .. => .type
  | declare .. => .declare
  | giveBack .. => .giveBack
  | evaluate .. => .evaluate
  | block .. => .block
  | function .. => .function
  | param .. => .param
  | program _ => .program

/-- Whether there is no node. -/
def isMissing (n : Node) : Bool := n.kind = .missing

/-- Whether the node is a type by itself, rather than a type in the place of an argument. -/
def isType (n : Node) : Bool := n.kind = .type

theorem isMissing_iff {n : Node} : n.isMissing = true ↔ n = missing := by
  cases n <;> simp [isMissing, kind]

/-- Where the node stands, if it has a place of its own. -/
def loc? : Node → Option Loc
  | name loc _ | literal loc _ | unary loc _ _ | binary loc _ _ _ | call loc _ _ | member loc _ _
  | index loc _ _ | instantiate loc _ _ | mixin loc _ | typeArg loc _ | declare loc _ _ _
  | giveBack loc _ | evaluate loc _ | block loc _ | function loc _ _ _ _ => some loc
  | interpolation i => some i.loc
  | type loc _ _ _ _ => loc
  | missing | param _ _ _ | program _ => none

/-- The statements of a program or of a block. -/
def statements : Node → Except Failure Program
  | program body | block _ body => .ok body
  | n => .error (.lacksPart n.kind .statements)

end Node

/-! ## Moving trees -/

mutual

/-- The tree with every location mapped. -/
def Node.mapLoc (f : Loc → Loc) : Node → Node
  | .missing => .missing
  | .name loc ident => .name (f loc) ident
  | .literal loc value => .literal (f loc) value
  | .unary loc op operand => .unary (f loc) op (operand.mapLoc f)
  | .binary loc op left right => .binary (f loc) op (left.mapLoc f) (right.mapLoc f)
  | .call loc callee args => .call (f loc) (callee.mapLoc f) (Node.mapLocs f args)
  | .member loc value ident => .member (f loc) (value.mapLoc f) ident
  | .index loc value offset => .index (f loc) (value.mapLoc f) (offset.mapLoc f)
  | .instantiate loc template args =>
    .instantiate (f loc) (template.mapLoc f) (Node.mapLocs f args)
  | .mixin loc args => .mixin (f loc) (Node.mapLocs f args)
  | .typeArg loc t => .typeArg (f loc) (t.mapLoc f)
  | .interpolation i => .interpolation (i.mapLoc f)
  | .type loc ident isTemplate args size =>
    .type (loc.map f) ident isTemplate (Node.mapLocs f args) (size.mapLoc f)
  | .declare loc ident t value => .declare (f loc) ident (t.mapLoc f) (value.mapLoc f)
  | .giveBack loc value => .giveBack (f loc) (value.mapLoc f)
  | .evaluate loc value => .evaluate (f loc) (value.mapLoc f)
  | .block loc body => .block (f loc) (Node.mapLocs f body)
  | .function loc ident params result body =>
    .function (f loc) ident (Node.mapLocs f params) (result.mapLoc f) (body.mapLoc f)
  | .param ident t default => .param ident (t.mapLoc f) (default.mapLoc f)
  | .program body => .program (Node.mapLocs f body)

/-- The trees with every location mapped. -/
def Node.mapLocs (f : Loc → Loc) : List Node → List Node
  | [] => []
  | n :: rest => n.mapLoc f :: Node.mapLocs f rest

end

theorem Node.mapLocs_eq_map (f : Loc → Loc) (ns : List Node) :
    Node.mapLocs f ns = ns.map (Node.mapLoc f) := by
  induction ns with
  | nil => rfl
  | cons n rest ih => simp [Node.mapLocs, ih]

/-- A tree of a fragment, moved to where the fragment stands. -/
def Node.relocate (origin : Loc) (n : Node) : Node := n.mapLoc (·.within origin)

end Splice
