import Splice.Grammar.Automaton
import Splice.Grammar.Symbol
import Splice.Syntax.TypeForm

/-!
# The host grammar

The productions of the host language, each with the node it builds. A production has the location
of its first token, parentheses included; an expression in parentheses is passed on with the
location it has inside. Literals are decoded from left to right, except that the default value of
a parameter comes before the parameter's type.

Binding strengths are levels of the grammar: a disjunction consists of conjunctions, these of
comparisons, and so on down to the primary expressions. Comparisons do not chain.

* `Production.all`: the grammar.
* `Grammar.host`: its rules alone, with numbers for the symbols.
-/

namespace Splice

/-- A production, and the value it builds out of what its symbols stand for. -/
structure Production where
  lhs : Nonterminal
  rhs : List Symbol
  build : Loc → Symbol.Values rhs → Decoded lhs.Value

namespace Node

/-- A type with a suffix. -/
def withSuffix (base : Node) : TypeSuffix → Node
  | .pointer => base.pointerType
  | .slice => base.arrayType .missing
  | .array size => base.arrayType size

/-- A type with its suffixes from left to right. -/
def withSuffixes (base : Node) (suffixes : List TypeSuffix) : Node :=
  suffixes.foldl withSuffix base

end Node

namespace Production

/-- The list of a first item and the items behind it. -/
def consItems {α : Type} (first : Decoded α) (rest : Decoded (List α)) : Decoded (List α) := do
  let a ← first
  let as ← rest
  return a :: as

/-- A list with one more item at its end. -/
def snocItems {α : Type} (items : Decoded (List α)) (last : Decoded α) : Decoded (List α) := do
  let as ← items
  let a ← last
  return as ++ [a]

/-- A list of one item. -/
def oneItem {α : Type} (item : Decoded α) : Decoded (List α) := do
  let a ← item
  return [a]

/-- The expression of an operator between two operands. -/
def binary (loc : Loc) (op : BinaryOp) (left right : Decoded Node) : Decoded Node := do
  let l ← left
  let r ← right
  return .binary loc op l r

/-- The expression of a literal token. -/
def literal (value : Token → Decoded Constant) (token : Token) : Decoded Node := do
  let constant ← value token
  return .literal token.loc constant

/-! ## Statements -/

/-- Whole texts. The end of the text is a token of its own. -/
def wholes : List Production := [
  ⟨.whole .program, [.nonterminal .program, .terminal .endOfText], fun _ (p, _, ()) => p⟩,
  ⟨.whole .expr, [.nonterminal .expr, .terminal .endOfText], fun _ (e, _, ()) => e⟩,
  ⟨.whole .type, [.nonterminal .type, .terminal .endOfText], fun _ (t, _, ()) => t⟩]

/-- Programs and statements. -/
def statements : List Production := [
  ⟨.program, [], fun _ () => .ok []⟩,
  ⟨.program, [.nonterminal .statements], fun _ (body, ()) => body⟩,
  ⟨.statements, [.nonterminal .statement], fun _ (s, ()) => oneItem s⟩,
  ⟨.statements, [.nonterminal .statements, .nonterminal .statement],
    fun _ (body, s, ()) => snocItems body s⟩,
  ⟨.statement, [.nonterminal .declaration], fun _ (s, ()) => s⟩,
  ⟨.statement, [.nonterminal .function], fun _ (s, ()) => s⟩,
  ⟨.statement, [.nonterminal .giveBack], fun _ (s, ()) => s⟩,
  ⟨.statement, [.nonterminal .evaluation], fun _ (s, ()) => s⟩,
  ⟨.statement, [.nonterminal .block], fun _ (s, ()) => s⟩,
  ⟨.declaration, [.word .letWord, .terminal .name, .mark .equal, .nonterminal .expr,
      .mark .semicolon],
    fun loc (_, ident, _, value, _, ()) => do
      let v ← value
      return .declare loc ident.text .missing v⟩,
  ⟨.declaration, [.word .letWord, .terminal .name, .mark .colon, .nonterminal .type, .mark .equal,
      .nonterminal .expr, .mark .semicolon],
    fun loc (_, ident, _, type, _, value, _, ()) => do
      let t ← type
      let v ← value
      return .declare loc ident.text t v⟩,
  ⟨.giveBack, [.word .returnWord, .mark .semicolon], fun loc _ => .ok (.giveBack loc .missing)⟩,
  ⟨.giveBack, [.word .returnWord, .nonterminal .expr, .mark .semicolon],
    fun loc (_, value, _, ()) => do
      let v ← value
      return .giveBack loc v⟩,
  ⟨.evaluation, [.nonterminal .expr, .mark .semicolon], fun loc (value, _, ()) => do
    let v ← value
    return .evaluate loc v⟩,
  ⟨.block, [.mark .lbrace, .mark .rbrace], fun loc _ => .ok (.block loc [])⟩,
  ⟨.block, [.mark .lbrace, .nonterminal .statements, .mark .rbrace],
    fun loc (_, body, _, ()) => do
      let ss ← body
      return .block loc ss⟩]

/-- The statement of a function with the parts it may lack. -/
def functionNode (loc : Loc) (ident : Token) (params : Decoded (List Node))
    (result block : Decoded Node) : Decoded Node := do
  let ps ← params
  let t ← result
  let body ← block
  return .function loc ident.text ps t body

/-- Functions and their parameters. -/
def functions : List Production := [
  ⟨.function, [.word .fnWord, .terminal .name, .mark .lparen, .mark .rparen, .nonterminal .block],
    fun loc (_, ident, _, _, block, ()) => functionNode loc ident (.ok []) (.ok .missing) block⟩,
  ⟨.function, [.word .fnWord, .terminal .name, .mark .lparen, .mark .rparen, .mark .colon,
      .nonterminal .type, .nonterminal .block],
    fun loc (_, ident, _, _, _, result, block, ()) =>
      functionNode loc ident (.ok []) result block⟩,
  ⟨.function, [.word .fnWord, .terminal .name, .mark .lparen, .nonterminal .params, .mark .rparen,
      .nonterminal .block],
    fun loc (_, ident, _, params, _, block, ()) =>
      functionNode loc ident params (.ok .missing) block⟩,
  ⟨.function, [.word .fnWord, .terminal .name, .mark .lparen, .nonterminal .params, .mark .rparen,
      .mark .colon, .nonterminal .type, .nonterminal .block],
    fun loc (_, ident, _, params, _, _, result, block, ()) =>
      functionNode loc ident params result block⟩,
  ⟨.params, [.nonterminal .param], fun _ (p, ()) => oneItem p⟩,
  ⟨.params, [.nonterminal .param, .nonterminal .moreParams], fun _ (p, ps, ()) => consItems p ps⟩,
  ⟨.moreParams, [.mark .comma, .nonterminal .param], fun _ (_, p, ()) => oneItem p⟩,
  ⟨.moreParams, [.nonterminal .moreParams, .mark .comma, .nonterminal .param],
    fun _ (ps, _, p, ()) => snocItems ps p⟩,
  ⟨.param, [.terminal .name, .mark .colon, .nonterminal .type],
    fun _ (ident, _, type, ()) => do
      let t ← type
      return .param ident.text t .missing⟩,
  ⟨.param, [.terminal .name, .mark .colon, .nonterminal .type, .mark .equal, .nonterminal .expr],
    fun _ (ident, _, type, _, value, ()) => do
      let v ← value
      let t ← type
      return .param ident.text t v⟩]

/-! ## Expressions -/

/-- The levels of binding strength. -/
def operators : List Production :=
  [⟨.expr, [.nonterminal .disjunction], fun _ (e, ()) => e⟩,
   ⟨.disjunction, [.nonterminal .conjunction], fun _ (e, ()) => e⟩,
   ⟨.disjunction, [.nonterminal .disjunction, .mark .orOr, .nonterminal .conjunction],
    fun loc (l, _, r, ()) => binary loc .or l r⟩,
   ⟨.conjunction, [.nonterminal .comparison], fun _ (e, ()) => e⟩,
   ⟨.conjunction, [.nonterminal .conjunction, .mark .andAnd, .nonterminal .comparison],
    fun loc (l, _, r, ()) => binary loc .and l r⟩,
   ⟨.comparison, [.nonterminal .sum], fun _ (e, ()) => e⟩] ++
  BinaryOp.comparisons.map (fun (mark, op) =>
    ⟨.comparison, [.nonterminal .sum, .mark mark, .nonterminal .sum],
      fun loc (l, _, r, ()) => binary loc op l r⟩) ++
  [⟨.sum, [.nonterminal .term], fun _ (e, ()) => e⟩] ++
  BinaryOp.sums.map (fun (mark, op) =>
    ⟨.sum, [.nonterminal .sum, .mark mark, .nonterminal .term],
      fun loc (l, _, r, ()) => binary loc op l r⟩) ++
  [⟨.term, [.nonterminal .unary], fun _ (e, ()) => e⟩] ++
  BinaryOp.products.map (fun (mark, op) =>
    ⟨.term, [.nonterminal .term, .mark mark, .nonterminal .unary],
      fun loc (l, _, r, ()) => binary loc op l r⟩) ++
  [⟨.unary, [.nonterminal .suffixed], fun _ (e, ()) => e⟩] ++
  UnaryOp.marks.map (fun (mark, op) =>
    ⟨.unary, [.mark mark, .nonterminal .unary], fun loc (_, operand, ()) => do
      let e ← operand
      return .unary loc op e⟩)

/-- A call of an expression with its arguments. -/
def callNode (loc : Loc) (callee : Decoded Node) (args : Decoded (List Node)) : Decoded Node := do
  let e ← callee
  let as ← args
  return .call loc e as

/-- A template with its arguments. -/
def instantiateNode (loc : Loc) (template : Decoded Node) (args : Decoded (List Node)) :
    Decoded Node := do
  let e ← template
  let as ← args
  return .instantiate loc e as

/-- A mixin with its arguments. -/
def mixinNode (loc : Loc) (args : Decoded (List Node)) : Decoded Node := do
  let as ← args
  return .mixin loc as

/-- What may stand behind an expression, and the expressions that nothing can be taken off. -/
def operands : List Production := [
  ⟨.suffixed, [.nonterminal .primary], fun _ (e, ()) => e⟩,
  ⟨.suffixed, [.nonterminal .suffixed, .mark .lparen, .mark .rparen],
    fun loc (callee, _, _, ()) => callNode loc callee (.ok [])⟩,
  ⟨.suffixed, [.nonterminal .suffixed, .mark .lparen, .nonterminal .args, .mark .rparen],
    fun loc (callee, _, args, _, ()) => callNode loc callee args⟩,
  ⟨.suffixed, [.nonterminal .suffixed, .mark .dot, .terminal .name],
    fun loc (value, _, ident, ()) => do
      let e ← value
      return .member loc e ident.text⟩,
  ⟨.suffixed, [.nonterminal .suffixed, .mark .lbracket, .nonterminal .expr, .mark .rbracket],
    fun loc (value, _, offset, _, ()) => do
      let e ← value
      let i ← offset
      return .index loc e i⟩,
  ⟨.suffixed, [.nonterminal .suffixed, .mark .bang, .mark .lparen, .mark .rparen],
    fun loc (template, _, _, _, ()) => instantiateNode loc template (.ok [])⟩,
  ⟨.suffixed, [.nonterminal .suffixed, .mark .bang, .mark .lparen, .nonterminal .templateArgs,
      .mark .rparen],
    fun loc (template, _, _, args, _, ()) => instantiateNode loc template args⟩,
  ⟨.primary, [.terminal .name], fun loc (ident, ()) => .ok (.name loc ident.text)⟩,
  ⟨.primary, [.terminal .intLit], fun _ (t, ()) => literal Constant.ofInteger t⟩,
  ⟨.primary, [.terminal .floatLit], fun _ (t, ()) => literal Constant.ofFraction t⟩,
  ⟨.primary, [.terminal .stringLit], fun _ (t, ()) => literal Constant.ofString t⟩,
  ⟨.primary, [.terminal .rawStringLit], fun _ (t, ()) => literal Constant.ofRawString t⟩,
  ⟨.primary, [.terminal .charLit], fun _ (t, ()) => literal Constant.ofCharacter t⟩,
  ⟨.primary, [.terminal .interpolatedLit], fun _ (t, ()) =>
    (Interpolation.ofToken t).map .interpolation⟩,
  ⟨.primary, [.word .trueWord], fun loc _ => .ok (.literal loc (.bool true))⟩,
  ⟨.primary, [.word .falseWord], fun loc _ => .ok (.literal loc (.bool false))⟩,
  ⟨.primary, [.word .nullWord], fun loc _ => .ok (.literal loc .null)⟩,
  ⟨.primary, [.word .mixinWord, .mark .lparen, .mark .rparen],
    fun loc _ => mixinNode loc (.ok [])⟩,
  ⟨.primary, [.word .mixinWord, .mark .lparen, .nonterminal .args, .mark .rparen],
    fun loc (_, _, args, _, ()) => mixinNode loc args⟩,
  ⟨.primary, [.mark .lparen, .nonterminal .expr, .mark .rparen], fun _ (_, e, _, ()) => e⟩]

/-- Argument lists. A type may stand among the arguments of a template if it starts like no
expression does. -/
def arguments : List Production := [
  ⟨.args, [.nonterminal .expr], fun _ (e, ()) => oneItem e⟩,
  ⟨.args, [.nonterminal .expr, .nonterminal .moreArgs], fun _ (e, es, ()) => consItems e es⟩,
  ⟨.moreArgs, [.mark .comma, .nonterminal .expr], fun _ (_, e, ()) => oneItem e⟩,
  ⟨.moreArgs, [.nonterminal .moreArgs, .mark .comma, .nonterminal .expr],
    fun _ (es, _, e, ()) => snocItems es e⟩,
  ⟨.templateArgs, [.nonterminal .templateArg], fun _ (e, ()) => oneItem e⟩,
  ⟨.templateArgs, [.nonterminal .templateArg, .nonterminal .moreTemplateArgs],
    fun _ (e, es, ()) => consItems e es⟩,
  ⟨.moreTemplateArgs, [.mark .comma, .nonterminal .templateArg], fun _ (_, e, ()) => oneItem e⟩,
  ⟨.moreTemplateArgs, [.nonterminal .moreTemplateArgs, .mark .comma, .nonterminal .templateArg],
    fun _ (es, _, e, ()) => snocItems es e⟩,
  ⟨.templateArg, [.nonterminal .expr], fun _ (e, ()) => e⟩,
  ⟨.templateArg, [.nonterminal .typeOnly], fun _ (e, ()) => e⟩]

/-! ## Types -/

/-- The node of a type with suffixes behind it. -/
def suffixedType (base : Decoded Node) (suffixes : Decoded (List TypeSuffix)) :
    Decoded Node := do
  let t ← base
  let ss ← suffixes
  return t.withSuffixes ss

/-- The node of a type among arguments. -/
def typeArgNode (loc : Loc) (type : Decoded Node) : Decoded Node := do
  let t ← type
  return .typeArg loc t

/-- The node of a type template with its arguments. -/
def templateNode (loc : Loc) (name : Decoded Text) (args : Decoded (List Node)) :
    Decoded Node := do
  let n ← name
  let as ← args
  return .templateType loc n as

/-- A name with the names behind its points. -/
def joinNames (first more : Decoded Text) : Decoded Text := do
  let t ← first
  let ts ← more
  return t ++ ts

/-- Types and their parts. -/
def types : List Production :=
  [⟨.typeOnly, [.nonterminal .builtinType], fun loc (t, ()) => typeArgNode loc t⟩,
   ⟨.typeOnly, [.nonterminal .builtinType, .nonterminal .typeSuffixes],
    fun loc (t, ss, ()) => typeArgNode loc (suffixedType t ss)⟩,
   ⟨.typeOnly, [.nonterminal .qualifiedType], fun loc (t, ()) => typeArgNode loc t⟩,
   ⟨.typeOnly, [.nonterminal .qualifiedType, .nonterminal .typeSuffixes],
    fun loc (t, ss, ()) => typeArgNode loc (suffixedType t ss)⟩,
   ⟨.type, [.nonterminal .typeBase], fun _ (t, ()) => t⟩,
   ⟨.type, [.nonterminal .typeBase, .nonterminal .typeSuffixes],
    fun _ (t, ss, ()) => suffixedType t ss⟩,
   ⟨.typeBase, [.nonterminal .builtinType], fun _ (t, ()) => t⟩,
   ⟨.typeBase, [.nonterminal .qualifiedType], fun _ (t, ()) => t⟩,
   ⟨.typeBase, [.nonterminal .qualifiedName], fun loc (name, ()) => do
    let n ← name
    return .namedType loc n⟩,
   ⟨.typeBase, [.nonterminal .qualifiedName, .mark .bang, .mark .lparen, .mark .rparen],
    fun loc (name, _, _, _, ()) => templateNode loc name (.ok [])⟩,
   ⟨.typeBase, [.nonterminal .qualifiedName, .mark .bang, .mark .lparen,
      .nonterminal .templateArgs, .mark .rparen],
    fun loc (name, _, _, args, _, ()) => templateNode loc name args⟩] ++
  BuiltinType.all.map (fun b =>
    ⟨.builtinType, [.word (.builtin b)], fun loc _ => .ok (.namedType loc b.word)⟩) ++
  Qualifier.all.map (fun q =>
    ⟨.qualifiedType, [.word (.qualifier q), .mark .lparen, .nonterminal .type, .mark .rparen],
      fun loc (_, _, inner, _, ()) => do
        let t ← inner
        return .qualifiedType loc q t⟩) ++
  [⟨.qualifiedName, [.terminal .name], fun _ (ident, ()) => .ok ident.text⟩,
   ⟨.qualifiedName, [.terminal .name, .nonterminal .moreNames],
    fun _ (ident, more, ()) => joinNames (.ok ident.text) more⟩,
   ⟨.moreNames, [.mark .dot, .terminal .name], fun _ (_, ident, ()) => .ok ('.' :: ident.text)⟩,
   ⟨.moreNames, [.nonterminal .moreNames, .mark .dot, .terminal .name],
    fun _ (more, _, ident, ()) => joinNames more (.ok ('.' :: ident.text))⟩,
   ⟨.typeSuffixes, [.nonterminal .typeSuffix], fun _ (s, ()) => oneItem s⟩,
   ⟨.typeSuffixes, [.nonterminal .typeSuffixes, .nonterminal .typeSuffix],
    fun _ (ss, s, ()) => snocItems ss s⟩,
   ⟨.typeSuffix, [.mark .star], fun _ _ => .ok .pointer⟩,
   ⟨.typeSuffix, [.mark .lbracket, .mark .rbracket], fun _ _ => .ok .slice⟩,
   ⟨.typeSuffix, [.mark .lbracket, .nonterminal .expr, .mark .rbracket],
    fun _ (_, size, _, ()) => do
      let e ← size
      return .array e⟩]

/-- The grammar of the host language. -/
def all : List Production :=
  wholes ++ statements ++ functions ++ operators ++ operands ++ arguments ++ types

/-- The production without its node. -/
def rule (p : Production) : Rule := ⟨(Symbol.nonterminal p.lhs).code, p.rhs.map Symbol.code⟩

end Production

/-- The rules of the host grammar. -/
def Grammar.host : Grammar :=
  { terminals := Terminal.count, symbols := Terminal.count + Nonterminal.count,
    rules := Production.all.map Production.rule }

end Splice
