import Splice.Literal.Value
import Splice.Parse.Tree

/-!
# Phrases of the host language

The grammar of the host language as its users write it: which rows of tokens are a statement, an
expression or a type, and with which tree. Parts that may be left out or repeated are written as
such. Neither the productions of the parser nor its tables occur here.

The location of a tree is that of the first token of its phrase; an expression in parentheses is
the phrase between them.

* `Phrase`: a row of tokens is of some category, with a tree.
* `Row`: nothing, or items with commas between them.
* `Goal.IsTree`: a row of tokens is a program, an expression or a type with a tree.
-/

namespace Splice

/-- Where the first of the tokens stands. -/
def startOf : List Token → Loc
  | [] => .start
  | token :: _ => token.loc

theorem startOf_append {ts : List Token} (h : ts ≠ []) (us : List Token) :
    startOf (ts ++ us) = startOf ts := by
  obtain ⟨token, ts, rfl⟩ := List.exists_cons_of_ne_nil h
  rfl

/-- Items with a comma in front of each. -/
inductive Tail : List (List Token) → List Token → Prop
  | nil : Tail [] []
  | cons {comma : Token} {item later : List Token} {items : List (List Token)}
    (hcomma : comma.terminal = .mark .comma) (h : Tail items later) :
    Tail (item :: items) (comma :: (item ++ later))

theorem Tail.append {items items' : List (List Token)} {ts us : List Token} (h : Tail items ts)
    (h' : Tail items' us) : Tail (items ++ items') (ts ++ us) := by
  induction h with
  | nil => exact h'
  | cons hcomma _ ih =>
    rw [List.cons_append, List.cons_append, List.append_assoc]
    exact .cons hcomma ih

/-- Nothing, or items with commas between them: `[item ("," item)*]`. -/
inductive Row : List (List Token) → List Token → Prop
  | nothing : Row [] []
  | items {item later : List Token} {items : List (List Token)} (h : Tail items later) :
    Row (item :: items) (item ++ later)

/-- Names with points between them: `NAME ("." NAME)*`. -/
inductive QualifiedName : List Token → Text → Prop
  | name {token : Token} (h : token.terminal = .name) : QualifiedName [token] token.text
  | dot {tokens : List Token} {t : Text} {dot token : Token} (h : QualifiedName tokens t)
    (hdot : dot.terminal = .mark .dot) (htoken : token.terminal = .name) :
    QualifiedName (tokens ++ [dot, token]) (t ++ ↑ '.' :: token.text)

/-- The categories of phrases. -/
inductive Category
  | statement | block | param
  /-- `[":" type]` -/
  | ascription
  /-- `["=" expr]` -/
  | default
  /-- `[expr]` -/
  | result
  | disjunction | conjunction | comparison | sum | term | unary | suffixed | primary
  /-- An argument of a template. -/
  | templateArg
  /-- A type. One that begins with a reserved word can also stand among arguments. -/
  | type (reserved : Bool)
deriving DecidableEq, Inhabited

/-- Expressions are disjunctions. -/
abbrev Category.expr : Category := .disjunction

/-- A row of tokens is a phrase of a category, with a tree. -/
inductive Phrase : Category → List Token → Node → Prop
  /-- `"let" NAME [":" type] "=" expr ";"` -/
  | declare {word ident equal semicolon : Token} {ts us : List Token} {t e : Node}
    (hword : word.terminal = .keyword .letWord) (hident : ident.terminal = .name)
    (ht : Phrase .ascription ts t) (hequal : equal.terminal = .mark .equal)
    (he : Phrase .expr us e) (hsemicolon : semicolon.terminal = .mark .semicolon) :
    Phrase .statement (word :: ident :: (ts ++ equal :: (us ++ [semicolon])))
      (.declare word.loc ident.text t e)
  /-- `"fn" NAME "(" [param ("," param)*] ")" [":" type] block` -/
  | function {word ident lparen rparen : Token} {ps : List (List Token × Node)}
    {row ts us : List Token} {t body : Node}
    (hword : word.terminal = .keyword .fnWord) (hident : ident.terminal = .name)
    (hlparen : lparen.terminal = .mark .lparen) (hps : ∀ p ∈ ps, Phrase .param p.1 p.2)
    (hrow : Row (ps.map (·.1)) row) (hrparen : rparen.terminal = .mark .rparen)
    (ht : Phrase .ascription ts t) (hbody : Phrase .block us body) :
    Phrase .statement (word :: ident :: lparen :: (row ++ rparen :: (ts ++ us)))
      (.function word.loc ident.text (ps.map (·.2)) t body)
  /-- `"return" [expr] ";"` -/
  | giveBack {word semicolon : Token} {ts : List Token} {e : Node}
    (hword : word.terminal = .keyword .returnWord) (he : Phrase .result ts e)
    (hsemicolon : semicolon.terminal = .mark .semicolon) :
    Phrase .statement (word :: (ts ++ [semicolon])) (.giveBack word.loc e)
  /-- `expr ";"` -/
  | evaluate {semicolon : Token} {ts : List Token} {e : Node} (he : Phrase .expr ts e)
    (hsemicolon : semicolon.terminal = .mark .semicolon) :
    Phrase .statement (ts ++ [semicolon]) (.evaluate (startOf ts) e)
  | nested {ts : List Token} {b : Node} (h : Phrase .block ts b) : Phrase .statement ts b
  /-- `"{" stmt* "}"` -/
  | block {lbrace rbrace : Token} {ss : List (List Token × Node)}
    (hlbrace : lbrace.terminal = .mark .lbrace) (hss : ∀ s ∈ ss, Phrase .statement s.1 s.2)
    (hrbrace : rbrace.terminal = .mark .rbrace) :
    Phrase .block (lbrace :: ((ss.map (·.1)).flatten ++ [rbrace]))
      (.block lbrace.loc (ss.map (·.2)))
  /-- `NAME ":" type ["=" expr]` -/
  | param {ident colon : Token} {ts us : List Token} {t e : Node} (hident : ident.terminal = .name)
    (hcolon : colon.terminal = .mark .colon) (ht : Phrase (.type false) ts t)
    (he : Phrase .default us e) :
    Phrase .param (ident :: colon :: (ts ++ us)) (.param ident.text t e)
  | noAscription : Phrase .ascription [] .missing
  | ascription {colon : Token} {ts : List Token} {t : Node}
    (hcolon : colon.terminal = .mark .colon) (ht : Phrase (.type false) ts t) :
    Phrase .ascription (colon :: ts) t
  | noDefault : Phrase .default [] .missing
  | default {equal : Token} {ts : List Token} {e : Node} (hequal : equal.terminal = .mark .equal)
    (he : Phrase .expr ts e) : Phrase .default (equal :: ts) e
  | noResult : Phrase .result [] .missing
  | result {ts : List Token} {e : Node} (he : Phrase .expr ts e) : Phrase .result ts e
  | ofConjunction {ts : List Token} {e : Node} (h : Phrase .conjunction ts e) :
    Phrase .disjunction ts e
  | or {mark : Token} {ts us : List Token} {l r : Node} (hl : Phrase .disjunction ts l)
    (hmark : mark.terminal = .mark .orOr) (hr : Phrase .conjunction us r) :
    Phrase .disjunction (ts ++ mark :: us) (.binary (startOf ts) .or l r)
  | ofComparison {ts : List Token} {e : Node} (h : Phrase .comparison ts e) :
    Phrase .conjunction ts e
  | and {mark : Token} {ts us : List Token} {l r : Node} (hl : Phrase .conjunction ts l)
    (hmark : mark.terminal = .mark .andAnd) (hr : Phrase .comparison us r) :
    Phrase .conjunction (ts ++ mark :: us) (.binary (startOf ts) .and l r)
  | ofSum {ts : List Token} {e : Node} (h : Phrase .sum ts e) : Phrase .comparison ts e
  | comparison {mark : Token} {m : Mark} {op : BinaryOp} {ts us : List Token} {l r : Node}
    (hop : (m, op) ∈ BinaryOp.comparisons) (hl : Phrase .sum ts l)
    (hmark : mark.terminal = .mark m) (hr : Phrase .sum us r) :
    Phrase .comparison (ts ++ mark :: us) (.binary (startOf ts) op l r)
  | ofTerm {ts : List Token} {e : Node} (h : Phrase .term ts e) : Phrase .sum ts e
  | sum {mark : Token} {m : Mark} {op : BinaryOp} {ts us : List Token} {l r : Node}
    (hop : (m, op) ∈ BinaryOp.sums) (hl : Phrase .sum ts l) (hmark : mark.terminal = .mark m)
    (hr : Phrase .term us r) : Phrase .sum (ts ++ mark :: us) (.binary (startOf ts) op l r)
  | ofUnary {ts : List Token} {e : Node} (h : Phrase .unary ts e) : Phrase .term ts e
  | product {mark : Token} {m : Mark} {op : BinaryOp} {ts us : List Token} {l r : Node}
    (hop : (m, op) ∈ BinaryOp.products) (hl : Phrase .term ts l) (hmark : mark.terminal = .mark m)
    (hr : Phrase .unary us r) : Phrase .term (ts ++ mark :: us) (.binary (startOf ts) op l r)
  | ofSuffixed {ts : List Token} {e : Node} (h : Phrase .suffixed ts e) : Phrase .unary ts e
  | unary {mark : Token} {m : Mark} {op : UnaryOp} {ts : List Token} {e : Node}
    (hop : (m, op) ∈ UnaryOp.marks) (hmark : mark.terminal = .mark m) (he : Phrase .unary ts e) :
    Phrase .unary (mark :: ts) (.unary mark.loc op e)
  | ofPrimary {ts : List Token} {e : Node} (h : Phrase .primary ts e) : Phrase .suffixed ts e
  /-- `postfix "(" [expr ("," expr)*] ")"` -/
  | call {lparen rparen : Token} {ts row : List Token} {e : Node} {as : List (List Token × Node)}
    (he : Phrase .suffixed ts e) (hlparen : lparen.terminal = .mark .lparen)
    (has : ∀ a ∈ as, Phrase .expr a.1 a.2) (hrow : Row (as.map (·.1)) row)
    (hrparen : rparen.terminal = .mark .rparen) :
    Phrase .suffixed (ts ++ lparen :: (row ++ [rparen])) (.call (startOf ts) e (as.map (·.2)))
  /-- `postfix "." NAME` -/
  | member {dot ident : Token} {ts : List Token} {e : Node} (he : Phrase .suffixed ts e)
    (hdot : dot.terminal = .mark .dot) (hident : ident.terminal = .name) :
    Phrase .suffixed (ts ++ [dot, ident]) (.member (startOf ts) e ident.text)
  /-- `postfix "[" expr "]"` -/
  | index {lbracket rbracket : Token} {ts us : List Token} {e i : Node} (he : Phrase .suffixed ts e)
    (hlbracket : lbracket.terminal = .mark .lbracket) (hi : Phrase .expr us i)
    (hrbracket : rbracket.terminal = .mark .rbracket) :
    Phrase .suffixed (ts ++ lbracket :: (us ++ [rbracket])) (.index (startOf ts) e i)
  /-- `postfix "!" "(" [template_arg ("," template_arg)*] ")"` -/
  | instantiate {bang lparen rparen : Token} {ts row : List Token} {e : Node}
    {as : List (List Token × Node)} (he : Phrase .suffixed ts e)
    (hbang : bang.terminal = .mark .bang) (hlparen : lparen.terminal = .mark .lparen)
    (has : ∀ a ∈ as, Phrase .templateArg a.1 a.2) (hrow : Row (as.map (·.1)) row)
    (hrparen : rparen.terminal = .mark .rparen) :
    Phrase .suffixed (ts ++ bang :: lparen :: (row ++ [rparen]))
      (.instantiate (startOf ts) e (as.map (·.2)))
  | name {token : Token} (h : token.terminal = .name) :
    Phrase .primary [token] (.name token.loc token.text)
  | integer {token : Token} {c : Constant} (h : token.terminal = .intLit)
    (hc : Constant.ofInteger token = .ok c) : Phrase .primary [token] (.literal token.loc c)
  | fraction {token : Token} {c : Constant} (h : token.terminal = .floatLit)
    (hc : Constant.ofFraction token = .ok c) : Phrase .primary [token] (.literal token.loc c)
  | string {token : Token} {c : Constant} (h : token.terminal = .stringLit)
    (hc : Constant.ofString token = .ok c) : Phrase .primary [token] (.literal token.loc c)
  | rawString {token : Token} {c : Constant} (h : token.terminal = .rawStringLit)
    (hc : Constant.ofRawString token = .ok c) : Phrase .primary [token] (.literal token.loc c)
  | character {token : Token} {c : Constant} (h : token.terminal = .charLit)
    (hc : Constant.ofCharacter token = .ok c) : Phrase .primary [token] (.literal token.loc c)
  | interpolation {token : Token} {i : Interpolation} (h : token.terminal = .interpolatedLit)
    (hi : Interpolation.ofToken token = .ok i) : Phrase .primary [token] (.interpolation i)
  | isTrue {token : Token} (h : token.terminal = .keyword .trueWord) :
    Phrase .primary [token] (.literal token.loc (.bool true))
  | isFalse {token : Token} (h : token.terminal = .keyword .falseWord) :
    Phrase .primary [token] (.literal token.loc (.bool false))
  | null {token : Token} (h : token.terminal = .keyword .nullWord) :
    Phrase .primary [token] (.literal token.loc .null)
  /-- `"mixin" "(" [expr ("," expr)*] ")"` -/
  | mixin {word lparen rparen : Token} {row : List Token} {as : List (List Token × Node)}
    (hword : word.terminal = .keyword .mixinWord) (hlparen : lparen.terminal = .mark .lparen)
    (has : ∀ a ∈ as, Phrase .expr a.1 a.2) (hrow : Row (as.map (·.1)) row)
    (hrparen : rparen.terminal = .mark .rparen) :
    Phrase .primary (word :: lparen :: (row ++ [rparen])) (.mixin word.loc (as.map (·.2)))
  /-- `"(" expr ")"` -/
  | parentheses {lparen rparen : Token} {ts : List Token} {e : Node}
    (hlparen : lparen.terminal = .mark .lparen) (he : Phrase .expr ts e)
    (hrparen : rparen.terminal = .mark .rparen) : Phrase .primary (lparen :: (ts ++ [rparen])) e
  | exprArg {ts : List Token} {e : Node} (h : Phrase .expr ts e) : Phrase .templateArg ts e
  | typeArg {ts : List Token} {t : Node} (h : Phrase (.type true) ts t) :
    Phrase .templateArg ts (.typeArg (startOf ts) t)
  | builtin {reserved : Bool} {token : Token} {b : BuiltinType}
    (h : token.terminal = .keyword (.builtin b)) :
    Phrase (.type reserved) [token] (.namedType token.loc b.word)
  /-- `("const" | "immutable") "(" type ")"` -/
  | qualified {reserved : Bool} {word lparen rparen : Token} {q : Qualifier} {ts : List Token}
    {t : Node} (hword : word.terminal = .keyword (.qualifier q))
    (hlparen : lparen.terminal = .mark .lparen) (ht : Phrase (.type false) ts t)
    (hrparen : rparen.terminal = .mark .rparen) :
    Phrase (.type reserved) (word :: lparen :: (ts ++ [rparen])) (.qualifiedType word.loc q t)
  | named {ts : List Token} {ident : Text} (h : QualifiedName ts ident) :
    Phrase (.type false) ts (.namedType (startOf ts) ident)
  /-- `qual_name "!" "(" [template_arg ("," template_arg)*] ")"` -/
  | template {bang lparen rparen : Token} {ts row : List Token} {ident : Text}
    {as : List (List Token × Node)} (h : QualifiedName ts ident)
    (hbang : bang.terminal = .mark .bang) (hlparen : lparen.terminal = .mark .lparen)
    (has : ∀ a ∈ as, Phrase .templateArg a.1 a.2) (hrow : Row (as.map (·.1)) row)
    (hrparen : rparen.terminal = .mark .rparen) :
    Phrase (.type false) (ts ++ bang :: lparen :: (row ++ [rparen]))
      (.templateType (startOf ts) ident (as.map (·.2)))
  /-- `type "*"` -/
  | pointer {reserved : Bool} {star : Token} {ts : List Token} {t : Node}
    (h : Phrase (.type reserved) ts t) (hstar : star.terminal = .mark .star) :
    Phrase (.type reserved) (ts ++ [star]) t.pointerType
  /-- `type "[" "]"` -/
  | slice {reserved : Bool} {lbracket rbracket : Token} {ts : List Token} {t : Node}
    (h : Phrase (.type reserved) ts t) (hlbracket : lbracket.terminal = .mark .lbracket)
    (hrbracket : rbracket.terminal = .mark .rbracket) :
    Phrase (.type reserved) (ts ++ [lbracket, rbracket]) (t.arrayType .missing)
  /-- `type "[" expr "]"` -/
  | array {reserved : Bool} {lbracket rbracket : Token} {ts us : List Token} {t size : Node}
    (h : Phrase (.type reserved) ts t) (hlbracket : lbracket.terminal = .mark .lbracket)
    (hsize : Phrase .expr us size) (hrbracket : rbracket.terminal = .mark .rbracket) :
    Phrase (.type reserved) (ts ++ lbracket :: (us ++ [rbracket])) (t.arrayType size)

/-- What may be left out. -/
def Category.isOptional : Category → Bool
  | .ascription | .default | .result => true
  | _ => false

theorem QualifiedName.ne_nil {tokens : List Token} {t : Text} (h : QualifiedName tokens t) :
    tokens ≠ [] := by
  cases h <;> simp

theorem Phrase.ne_nil {c : Category} {tokens : List Token} {n : Node} (h : Phrase c tokens n)
    (hc : c.isOptional = false) : tokens ≠ [] := by
  induction h with
  | noAscription | noDefault | noResult | ascription | default | result => cases hc
  | nested _ ih | ofConjunction _ ih | ofComparison _ ih | ofSum _ ih | ofTerm _ ih | ofUnary _ ih
  | ofSuffixed _ ih | ofPrimary _ ih | exprArg _ ih | typeArg _ ih => exact ih rfl
  | named h => exact h.ne_nil
  | _ => simp

/-- An operand is an expression. -/
theorem Phrase.toExpr {ts : List Token} {e : Node} (h : Phrase .suffixed ts e) :
    Phrase .expr ts e :=
  .ofConjunction (.ofComparison (.ofSum (.ofTerm (.ofUnary (.ofSuffixed h)))))

/-- A row of tokens is a whole text of a goal: statements, an expression or a type. -/
def Goal.IsTree : (goal : Goal) → List Token → goal.body.Value → Prop
  | .program, tokens, body => ∃ ss : List (List Token × Node),
    tokens = (ss.map (·.1)).flatten ∧ body = ss.map (·.2) ∧ ∀ s ∈ ss, Phrase .statement s.1 s.2
  | .expr, tokens, e => Phrase .expr tokens e
  | .type, tokens, t => Phrase (.type false) tokens t

end Splice
