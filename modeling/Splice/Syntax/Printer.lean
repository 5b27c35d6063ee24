import Splice.Decimal.Notation
import Splice.Literal.Quote
import Splice.Syntax.TypeForm

/-!
# Writing expressions and types

The canonical source form of expressions and types: one space around binary operators and behind
commas, no comments, and parentheses only where the binding strengths need them. Only expressions
and types that are put together as the grammar wants them have a source form.

* `Node.text`, `Node.typeText`: the source form of an expression and of a type, where there is one.
* `Node.fault?`, `Node.typeFault?`: the first reason why there is none.
* `Node.write`: the source form, or that reason.
* `enclosed`: an operand that binds too weakly is written in parentheses.
-/

namespace Splice

/-- Texts with a comma and a space between them. -/
def commaSeparated : List Text → Text
  | [] => []
  | [t] => t
  | t :: rest => t ++ ↑ ',' :: ↑ ' ' :: commaSeparated rest

namespace Constant

/-- The literal that writes the value. -/
def text : Constant → Text
  | int n => toString n
  | float x => x.write
  | string t => quote t
  | char t => quoteCharacter t
  | bool true => "true"
  | bool false => "false"
  | null => "null"

end Constant

namespace Interpolation

/-- The literal that writes the body. -/
def text (i : Interpolation) : Text := i.kind.letter :: quote i.body.text

end Interpolation

/-- The binding strength of names, literals and everything with a bracket or a point behind. -/
def postfixStrength : Nat := 7

/-- How tightly the outermost part of an expression binds. -/
def Node.strength : Node → Nat
  | .binary _ op _ _ => op.strength
  | .unary _ _ _ => UnaryOp.strength
  | _ => postfixStrength

/-- A written operand, in parentheses if its strength is below the least one allowed. -/
def enclosed (strength minimum : Nat) (t : Text) : Text :=
  if strength < minimum then ↑ '(' :: t ++ ([')'] : Text) else t

mutual

/-- The source form of an expression. -/
def Node.text : Node → Text
  | .name _ ident => ident
  | .literal _ value => value.text
  | .unary _ op operand => op.text ++ enclosed operand.strength UnaryOp.strength operand.text
  | .binary _ op left right =>
    enclosed left.strength op.leftMinimum left.text ++ ↑ ' ' :: op.text ++
      ↑ ' ' :: enclosed right.strength op.rightMinimum right.text
  | .call _ callee args =>
    enclosed callee.strength postfixStrength callee.text ++
      ↑ '(' :: commaSeparated (Node.texts args) ++ ([')'] : Text)
  | .member _ value ident =>
    enclosed value.strength postfixStrength value.text ++ ↑ '.' :: ident
  | .index _ value offset =>
    enclosed value.strength postfixStrength value.text ++ ↑ '[' :: offset.text ++
      ([']'] : Text)
  | .instantiate _ template args =>
    enclosed template.strength postfixStrength template.text ++
      ↑ '!' :: ↑ '(' :: commaSeparated (Node.texts args) ++ ([')'] : Text)
  | .mixin _ args => "mixin(" ++ commaSeparated (Node.texts args) ++ ([')'] : Text)
  | .typeArg _ t => t.typeText
  | .interpolation i => i.text
  | _ => []

/-- The source forms of a list of expressions. -/
def Node.texts : List Node → List Text
  | [] => []
  | n :: rest => n.text :: Node.texts rest

/-- The source form of a type. -/
def Node.typeText : Node → Text
  | .type _ ident isTemplate args size =>
    match TypeForm.of ident isTemplate with
    | .pointer => Node.innerText args ++ (['*'] : Text)
    | .array => Node.innerText args ++ ↑ '[' :: size.text ++ ([']'] : Text)
    | .qualified => ident ++ ↑ '(' :: Node.innerText args ++ ([')'] : Text)
    | .template =>
      ident ++ ↑ '!' :: ↑ '(' :: commaSeparated (Node.typeArgTexts args) ++ ([')'] : Text)
    | .plain => ident
  | _ => []

/-- The source form of the type that another one is made of. -/
def Node.innerText : List Node → Text
  | [] => []
  | n :: _ => n.typeText

/-- The source forms of the arguments of a template of types, each of which is a type or an
expression. -/
def Node.typeArgTexts : List Node → List Text
  | [] => []
  | n :: rest => (if n.isType then n.typeText else n.text) :: Node.typeArgTexts rest

end

/-! ## Nodes without a source form -/

/-- Why an expression of the operator cannot be written: it is not known where its operands need
parentheses. -/
def BinaryOp.fault? : BinaryOp → Option Failure
  | .unknown spelling => some (.unknownOperator spelling)
  | _ => none

mutual

/-- Why an expression has no source form. -/
def Node.fault? : Node → Option Failure
  | .name _ _ | .literal _ _ | .interpolation _ => none
  | .unary _ _ operand => operand.fault?
  | .binary _ op left right => op.fault? <|> left.fault? <|> right.fault?
  | .call _ callee args => callee.fault? <|> Node.faults? args
  | .member _ value _ => value.fault?
  | .index _ value offset => value.fault? <|> offset.fault?
  | .instantiate _ template args => template.fault? <|> Node.faults? args
  | .mixin _ args => Node.faults? args
  | .typeArg _ t => t.typeFault?
  | n => some (.notWritable n.kind)

/-- Why one of several expressions has no source form. -/
def Node.faults? : List Node → Option Failure
  | [] => none
  | n :: rest => n.fault? <|> Node.faults? rest

/-- Why a type has no source form. A node that has a name is asked for the parts of the type that
its name tells. -/
def Node.typeFault? : Node → Option Failure
  | .type _ ident isTemplate args size =>
    match TypeForm.of ident isTemplate with
    | .pointer | .qualified => Node.innerFault? args
    | .array => (if size.isMissing then none else size.fault?) <|> Node.innerFault? args
    | .template => Node.typeArgFaults? args
    | .plain => none
  | .declare _ ident _ _ => some (.lacksPart .declare (TypeForm.of ident false).firstPart)
  | .function _ ident _ _ _ => some (.lacksPart .function (TypeForm.of ident false).firstPart)
  | .param ident _ _ => some (.lacksPart .param (TypeForm.of ident false).firstPart)
  | n => some (.lacksPart n.kind .name)

/-- Why the type that another one is made of has no source form. -/
def Node.innerFault? : List Node → Option Failure
  | [] => some .lacksInnerType
  | n :: _ => n.typeFault?

/-- Why one of the arguments of a template of types has no source form. -/
def Node.typeArgFaults? : List Node → Option Failure
  | [] => none
  | n :: rest => (if n.isType then n.typeFault? else n.fault?) <|> Node.typeArgFaults? rest

end

namespace Node

/-- The source form of an expression, or why it has none. -/
def writeExpr (n : Node) : Except Failure Text :=
  match n.fault? with
  | some failure => .error failure
  | none => .ok n.text

/-- The source form of a type, or why it has none. -/
def writeType (n : Node) : Except Failure Text :=
  match n.typeFault? with
  | some failure => .error failure
  | none => .ok n.typeText

/-- The source form of a type or an expression, or why it has none. -/
def write (n : Node) : Except Failure Text := if n.isType then n.writeType else n.writeExpr

end Node

end Splice
