import Splice.Rewrite.Expr

/-!
# Rewriting programs

Statements are rewritten in their order, and the parts of a statement from left to right, except
that the default value of a parameter comes before the parameter's type.

* `Rewriter.program`: a program with the literals in its argument lists lowered.
* `Session`: one log over several programs.
-/

namespace Splice

namespace Rewriter

/-- Rewrites what may be missing. -/
def optional (f : Node → Walk Node) (n : Node) : Walk Node :=
  if n.isMissing then return n else f n

/-- Rewrites a parameter. -/
def param (r : Rewriter) : Node → Walk Node
  | .param ident t default => do
    let default ← optional (r.expr "default value") default
    let t ← r.type t
    return .param ident t default
  | n => Walk.fail (.lacksPart n.kind .default)

mutual

/-- Rewrites a statement. -/
def stmt (r : Rewriter) : Node → Walk Node
  | .declare loc ident t value => do
    let t ← optional r.type t
    let value ← r.expr "variable initializer" value
    return .declare loc ident t value
  | .giveBack loc value => do
    let value ← optional (r.expr "return value") value
    return .giveBack loc value
  | .evaluate loc value => do
    let value ← r.expr "expression statement" value
    return .evaluate loc value
  | .block loc body => do
    let body ← stmts r body
    return .block loc body
  | .function loc ident params result body => do
    let params ← params.mapM r.param
    let result ← optional r.type result
    let body ← stmt r body
    return .function loc ident params result body
  | n => Walk.fail (.notStatement n.kind)

/-- Rewrites a row of statements. -/
def stmts (r : Rewriter) : List Node → Walk (List Node)
  | [] => return []
  | s :: rest => do
    let s ← stmt r s
    let later ← stmts r rest
    return s :: later

end

/-- Rewrites a program. -/
def program (r : Rewriter) (p : Program) : Walk Program := r.stmts p

end Rewriter

/-- A rewriter in use, with everything that it has recorded so far. -/
structure Session where
  rewriter : Rewriter
  log : Log := {}

namespace Session

/-- Rewrites one more program, which goes on with the log. What was recorded before a failure
stays. -/
def rewrite (s : Session) (p : Program) : Session × Except Failure Program :=
  let (log, result) := (s.rewriter.program p).run s.log
  ({ s with log }, result)

end Session

end Splice
