/-!
# Kinds of nodes

The kinds of nodes of a syntax tree and the parts that a walk may look for, each with the name
that messages give it.
-/

namespace Splice

/-- The kinds of nodes. -/
inductive NodeKind
  /-- No node at all. -/
  | missing
  | name | literal | unary | binary | call | member | index | instantiate | mixin | typeArg
  | interpolation
  | type
  | declare | giveBack | evaluate | block | function
  | param
  | program
deriving DecidableEq, Inhabited

namespace NodeKind

/-- The name of the kind. -/
def label : NodeKind → String
  | missing => "NoneType"
  | name => "Name"
  | literal => "Literal"
  | unary => "Unary"
  | binary => "Binary"
  | call => "Call"
  | member => "Attr"
  | index => "Index"
  | instantiate => "TemplateInstance"
  | mixin => "Mixin"
  | typeArg => "TypeArg"
  | interpolation => "InterpolationLiteral"
  | type => "TypeExpr"
  | declare => "LetStmt"
  | giveBack => "ReturnStmt"
  | evaluate => "ExprStmt"
  | block => "Block"
  | function => "FunctionDef"
  | param => "Param"
  | program => "Program"

end NodeKind

/-- Parts that only some kinds of nodes have. -/
inductive NodePart
  | name | args | isTemplate | size | default | statements
deriving DecidableEq, Inhabited

namespace NodePart

/-- The name of the part. -/
def label : NodePart → String
  | name => "name"
  | args => "args"
  | isTemplate => "is_template"
  | size => "size"
  | default => "default"
  | statements => "statements"

end NodePart

end Splice
