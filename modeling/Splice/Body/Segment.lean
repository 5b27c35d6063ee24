import Splice.Parse.Fragment

/-!
# Segments of a body

The body of an interpolated literal is a row of segments: texts, doubled dollar signs that stand
for one, and insertions. Every segment has the offsets in the body at which it starts and stops.

* `Segment.source`: how the segment is written; the sources of a body's segments join to the body.
* `Argument`: what a segment becomes in the argument list.
-/

namespace Splice

/-- The grammar that a group belongs to. -/
inductive Role
  | type | expression
deriving DecidableEq, Inhabited

namespace Role

/-- The name of the role. -/
def label : Role → String
  | type => "type"
  | expression => "expression"

end Role

/-- A place of a body where a value goes. Its node, and the role of a group, are missing until it
has been resolved. -/
inductive Insertion
  /-- `$name` -/
  | name (ident : Text) (start stop : Nat) (node : Node)
  /-- `$(…)` -/
  | group (raw : Text) (start stop : Nat) (role : Option Role) (node : Node)
deriving Inhabited

namespace Insertion

/-- The node of the insertion. -/
def node : Insertion → Node
  | name _ _ _ node | group _ _ _ _ node => node

/-- How the insertion is written. -/
def source : Insertion → Text
  | name ident _ _ _ => '$' :: ident
  | group raw _ _ _ _ => ↑ '$' :: ↑ '(' :: raw ++ ([')'] : Text)

end Insertion

/-- A piece of a body. -/
inductive Segment
  | text (text : Text) (start stop : Nat)
  /-- `$$`, a dollar sign. -/
  | dollar (start stop : Nat)
  | insertion (i : Insertion)
deriving Inhabited

namespace Segment

/-- How the segment is written. -/
def source : Segment → Text
  | text t _ _ => t
  | dollar _ _ => ['$', '$']
  | insertion i => i.source

/-- How a row of segments is written. -/
def sources (segments : List Segment) : Text := segments.flatMap source

end Segment

/-- An argument that a body lowers to. -/
inductive Argument
  | text (text : Text)
  /-- A value: the role and the source of its insertion, and its node. -/
  | value (role : Role) (source : Text) (node : Node)
deriving Inhabited

end Splice
