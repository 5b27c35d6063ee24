import Splice.Grammar.Terminal

/-!
# Operators

The operators of expressions, the marks that write them, and how tightly they bind. A tree that
was not read from a source may have an operator that the host language does not know.

* `BinaryOp.strength`: the binding strength of a binary operator; greater binds tighter.
* `BinaryOp.leftMinimum`: comparisons do not chain, so their left operand has to bind tighter than
  they do; the left operand of the other operators may be of the same strength.
-/

namespace Splice

/-- Operators between two operands. -/
inductive BinaryOp
  | or | and
  | eq | ne | le | ge | lt | gt
  | add | sub | concat
  | mul | div | rem
  /-- A spelling that is no binary operator of the host language. -/
  | unknown (spelling : Text)
deriving DecidableEq, Inhabited

namespace BinaryOp

/-- The comparisons with their marks. -/
def comparisons : List (Mark × BinaryOp) :=
  [(.eqEq, .eq), (.notEq, .ne), (.ltEq, .le), (.gtEq, .ge), (.lt, .lt), (.gt, .gt)]

/-- The operators of sums with their marks. -/
def sums : List (Mark × BinaryOp) := [(.plus, .add), (.minus, .sub), (.tilde, .concat)]

/-- The operators of products with their marks. -/
def products : List (Mark × BinaryOp) := [(.star, .mul), (.slash, .div), (.percent, .rem)]

/-- The binary operators of the host language with their marks. -/
def marks : List (Mark × BinaryOp) :=
  [(.orOr, .or), (.andAnd, .and)] ++ comparisons ++ sums ++ products

/-- The spelling of the operator. -/
def text : BinaryOp → Text
  | or => Mark.orOr.text
  | and => Mark.andAnd.text
  | eq => Mark.eqEq.text
  | ne => Mark.notEq.text
  | le => Mark.ltEq.text
  | ge => Mark.gtEq.text
  | lt => Mark.lt.text
  | gt => Mark.gt.text
  | add => Mark.plus.text
  | sub => Mark.minus.text
  | concat => Mark.tilde.text
  | mul => Mark.star.text
  | div => Mark.slash.text
  | rem => Mark.percent.text
  | unknown spelling => spelling

theorem text_marks : ∀ p ∈ marks, p.2.text = p.1.text := by decide

/-- The operator with a spelling. -/
def ofText (spelling : Text) : BinaryOp :=
  match marks.find? fun p => p.1.text = spelling with
  | some (_, op) => op
  | none => .unknown spelling

theorem ofText_marks : ∀ p ∈ marks, ofText p.2.text = p.2 := by decide

/-- Whether the operator compares its operands. -/
def isComparison : BinaryOp → Bool
  | eq | ne | le | ge | lt | gt => true
  | _ => false

/-- The binding strength of the operator. An unknown one binds less tightly than any other. -/
def strength : BinaryOp → Nat
  | unknown _ => 0
  | or => 1
  | and => 2
  | eq | ne | le | ge | lt | gt => 3
  | add | sub | concat => 4
  | mul | div | rem => 5

/-- The least strength of a left operand that needs no parentheses. -/
def leftMinimum (op : BinaryOp) : Nat :=
  if op.isComparison then op.strength + 1 else op.strength

/-- The least strength of a right operand that needs no parentheses. -/
def rightMinimum (op : BinaryOp) : Nat := op.strength + 1

end BinaryOp

/-- Operators in front of one operand. -/
inductive UnaryOp
  | neg | not
  /-- A spelling that is no unary operator of the host language. -/
  | unknown (spelling : Text)
deriving DecidableEq, Inhabited

namespace UnaryOp

/-- The unary operators of the host language with their marks. -/
def marks : List (Mark × UnaryOp) := [(.minus, .neg), (.bang, .not)]

/-- The spelling of the operator. -/
def text : UnaryOp → Text
  | neg => Mark.minus.text
  | not => Mark.bang.text
  | unknown spelling => spelling

theorem text_marks : ∀ p ∈ marks, p.2.text = p.1.text := by decide

/-- The operator with a spelling. -/
def ofText (spelling : Text) : UnaryOp :=
  match marks.find? fun p => p.1.text = spelling with
  | some (_, op) => op
  | none => .unknown spelling

theorem ofText_marks : ∀ p ∈ marks, ofText p.2.text = p.2 := by decide

/-- The binding strength of every unary operator. -/
def strength : Nat := 6

end UnaryOp

end Splice
