import Splice.Rewrite.Walk

/-!
# Rewriting expressions and types

Every literal that stands directly in an argument list is lowered, and its arguments take its
place in the list; every other literal is reported. The nodes that come out of the groups of a
literal are rewritten in turn. A site is recorded for every argument list in which a literal was
lowered, after everything inside it.

A tree from elsewhere may have a node where it does not belong; the walk fails at such a node.

* `Node.rewrite`, `Node.rewriteArgs`, `Node.rewriteType`: the walk over a tree.
* `Rewriter.nested`: the walk over what came out of a literal.
-/

namespace Splice

/-- How literals are lowered: the parsers of groups, and the file that diagnostics name. -/
structure Rewriter where
  parsers : FragmentParsers := .host
  file : Option Text := none
  /-- A literal inside a literal is shorter than the outer one as long as groups are read by the
  host grammar, so nesting is followed as many levels down as a literal has characters. With other
  parsers it may be deeper by this many levels. -/
  moreLevels : Nat := 0

namespace Rewriter

/-- Reports a literal that stands in no argument list. -/
def reject (r : Rewriter) (i : Interpolation) (place : Text) : Walk Unit := do
  match ← Walk.ofFailing (i.lower (.other place) r.parsers r.file) with
  | .ok _ => return ()
  | .error d => Walk.report d

/-- The node of an argument of a lowered literal. A text stands where the literal stands. -/
def argumentNode (nested : Node → Walk Node) (loc : Loc) : Argument → Walk Node
  | .text t => return .literal loc (.string t)
  | .value _ _ node => nested node

/-- What a literal in an argument list becomes: the nodes that take its place, and, if it was
lowered, its arguments. -/
def splice (r : Rewriter) (nested : Interpolation → Node → Walk Node) (context : Context)
    (i : Interpolation) : Walk (List Node × List (List Argument)) := do
  match ← Walk.ofFailing (i.lower context r.parsers r.file) with
  | .error d =>
    Walk.report d
    return ([.interpolation i], [])
  | .ok lowering =>
    let nodes ← lowering.args.mapM (argumentNode (nested i) i.loc)
    return (nodes, [lowering.args])

/-- Records a node if a literal was lowered among its arguments. -/
def record (loc : Loc) (node : Node) (lowered : List (List Argument)) : Walk Node := do
  if lowered.isEmpty then return node
  else
    Walk.site ⟨loc, node, lowered⟩
    return node

theorem record_nil (loc : Loc) (node : Node) : record loc node [] = pure node := rfl

theorem record_cons (loc : Loc) (node : Node) (args : List Argument)
    (lowered : List (List Argument)) : record loc node (args :: lowered) =
      .of { sites := [⟨loc, node, args :: lowered⟩] } (.ok node) :=
  Walk.ext_log rfl rfl

end Rewriter

mutual

/-- The expression with all literals in its argument lists lowered. `place` names where the
expression stands, and `nested` rewrites what comes out of a literal. -/
def Node.rewrite (r : Rewriter) (nested : Interpolation → Node → Walk Node) (place : Text) :
    Node → Walk Node
  | .interpolation i => do
    r.reject i place
    return .interpolation i
  | .name loc ident => return .name loc ident
  | .literal loc value => return .literal loc value
  | .binary loc op left right => do
    let side := "operand of '" ++ op.text ++ "'"
    let left ← left.rewrite r nested side
    let right ← right.rewrite r nested side
    return .binary loc op left right
  | .unary loc op operand => do
    let operand ← operand.rewrite r nested ("operand of '" ++ op.text ++ "'")
    return .unary loc op operand
  | .member loc value ident => do
    let value ← value.rewrite r nested "member access"
    return .member loc value ident
  | .index loc value offset => do
    let value ← value.rewrite r nested "indexed value"
    let offset ← offset.rewrite r nested "index"
    return .index loc value offset
  | .call loc callee args => do
    let callee ← callee.rewrite r nested "callee"
    let (args, lowered) ← Node.rewriteArgs r nested .callArgument args
    Rewriter.record loc (.call loc callee args) lowered
  | .instantiate loc template args => do
    let template ← template.rewrite r nested "template name"
    let (args, lowered) ← Node.rewriteArgs r nested .templateArgument args
    Rewriter.record loc (.instantiate loc template args) lowered
  | .mixin loc args => do
    let (args, lowered) ← Node.rewriteArgs r nested .mixinArgument args
    Rewriter.record loc (.mixin loc args) lowered
  | .typeArg loc t => do
    let t ← t.rewriteType r nested
    return .typeArg loc t
  | n => Walk.fail (.notExpression n.kind)

/-- The argument list with its literals lowered, and what each of these became. -/
def Node.rewriteArgs (r : Rewriter) (nested : Interpolation → Node → Walk Node)
    (context : Context) : List Node → Walk (List Node × List (List Argument))
  | [] => return ([], [])
  | .interpolation i :: rest => do
    let (nodes, lowered) ← r.splice nested context i
    let (later, loweredLater) ← Node.rewriteArgs r nested context rest
    return (nodes ++ later, lowered ++ loweredLater)
  | n :: rest => do
    let node ← n.rewrite r nested context.describe
    let (later, lowered) ← Node.rewriteArgs r nested context rest
    return (node :: later, lowered)

/-- The type with all literals in its argument lists lowered. Arguments that are types by
themselves come first; no template has such arguments in a tree of the host grammar. A type
without a location is recorded at line and column zero. -/
def Node.rewriteType (r : Rewriter) (nested : Interpolation → Node → Walk Node) :
    Node → Walk Node
  | .type loc ident isTemplate args size => do
    let inner ← Node.rewriteTypes r nested args
    let args ← if isTemplate then do
        let (args, lowered) ← Node.rewriteArgs r nested .templateArgument args
        let place := loc.getD ⟨0, 0⟩
        let type : Node := .type loc ident isTemplate args size
        let _ ← Rewriter.record place (.typeArg place type) lowered
        pure args
      else pure inner
    let size ← if size.isMissing then pure size else size.rewrite r nested "array size"
    return .type loc ident isTemplate args size
  | .call _ _ args => do
    let _ ← Node.rewriteTypes r nested args
    Walk.fail (.lacksPart .call .isTemplate)
  | .instantiate _ _ args => do
    let _ ← Node.rewriteTypes r nested args
    Walk.fail (.lacksPart .instantiate .isTemplate)
  | .mixin _ args => do
    let _ ← Node.rewriteTypes r nested args
    Walk.fail (.lacksPart .mixin .isTemplate)
  | n => Walk.fail (.lacksPart n.kind .args)

/-- The nodes of a list, of which those that are types by themselves are rewritten. -/
def Node.rewriteTypes (r : Rewriter) (nested : Interpolation → Node → Walk Node) :
    List Node → Walk (List Node)
  | [] => return []
  | n :: rest => do
    let node ← if n.isType then n.rewriteType r nested else pure n
    let later ← Node.rewriteTypes r nested rest
    return node :: later

end

/-- An argument that is no literal is rewritten where it stands. -/
theorem Node.rewriteArgs_cons {a : Node} (h : ∀ i, a ≠ .interpolation i) (r : Rewriter)
    (nested : Interpolation → Node → Walk Node) (context : Context) (rest : List Node) :
    Node.rewriteArgs r nested context (a :: rest) = (do
      let node ← a.rewrite r nested context.describe
      let (later, lowered) ← Node.rewriteArgs r nested context rest
      return (node :: later, lowered)) := by
  rw [Node.rewriteArgs]
  exact h

namespace Rewriter

/-- Rewrites an expression out of a group. Literals in it are followed `levels` levels down. -/
def nestedWithin (r : Rewriter) : (levels : Nat) → Node → Walk Node
  | 0, _ => Walk.fail .nestingTooDeep
  | levels + 1, e => e.rewrite r (fun _ => nestedWithin r levels) "interpolation group"

/-- Rewrites an expression out of a group of a literal. -/
def nested (r : Rewriter) (i : Interpolation) (e : Node) : Walk Node :=
  r.nestedWithin (i.body.chars.length + r.moreLevels) e

/-- Rewrites an expression that stands in some place of a program. -/
def expr (r : Rewriter) (place : Text) (e : Node) : Walk Node := e.rewrite r r.nested place

/-- Rewrites a type of a program. -/
def type (r : Rewriter) (t : Node) : Walk Node := t.rewriteType r r.nested

end Rewriter

end Splice
