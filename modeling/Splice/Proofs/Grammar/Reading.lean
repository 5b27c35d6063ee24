import Splice.Proofs.Grammar.Parsing
import Splice.Proofs.Lexing.Spelling

/-!
# Texts that are read as rows of symbols

`Reads rhs t s P` says that `t`, with `s` behind it, is cut into lexemes whose tokens are derived
from `rhs`, wherever the text stands, and that the values of the symbols have the property `P`. A
text is put together as its derivation is: by concatenation for a row of symbols, and by a
production for a nonterminal.

* `Reads.prepend`, `Reads.blank`: texts one behind the other, and a blank in front of one.
* `Reads.token`, `Nonterminal.reads_node`: a terminal, and a nonterminal by one of its productions.
* `parse_of_reads`: a text that is read as a goal is parsed.
* `readShape_operand`: a text of one token that is an operand is parsed, too.
-/

namespace Splice

/-- A text, with another one behind it, is read as a row of symbols. -/
def Reads (rhs : List Symbol) (t s : Text) (P : Symbol.Values rhs → Prop) : Prop :=
  ∃ lexemes, Cuts (t ++ s) lexemes s ∧ ∀ offset loc, ∃ values start,
    Derives rhs values start (tokensOf lexemes offset loc) ∧ P values

namespace Reads

variable {x : Symbol} {rhs rest : List Symbol} {t t' s : Text}

theorem imp {P P' : Symbol.Values rhs → Prop} (hP : ∀ v, P v → P' v) (h : Reads rhs t s P) :
    Reads rhs t s P' := by
  obtain ⟨lexemes, hcuts, hder⟩ := h
  refine ⟨lexemes, hcuts, fun offset loc => ?_⟩
  obtain ⟨values, start, hder, hvalues⟩ := hder offset loc
  exact ⟨values, start, hder, hP values hvalues⟩

/-- A symbol in front of a row of symbols. -/
theorem prepend {P : Symbol.Values [x] → Prop} {P' : Symbol.Values rest → Prop}
    (later : Reads rest t' s P') (first : Reads [x] t (t' ++ s) P) :
    Reads (x :: rest) (t ++ t') s fun v => P (v.1, ()) ∧ P' v.2 := by
  obtain ⟨front, hfront, hfirst⟩ := first
  obtain ⟨back, hback, hlater⟩ := later
  refine ⟨front ++ back, ?_, fun offset loc => ?_⟩
  · rw [List.append_assoc]
    exact hfront.append hback
  · obtain ⟨⟨v, ⟨⟩⟩, start, hder, hv⟩ := hfirst offset loc
    obtain ⟨vs, start', hder', hvs⟩ := hlater (offset + (joined front).length)
      (loc.advanceAll (joined front))
    rw [tokensOf_append]
    exact ⟨(v, vs), start, hder.cons hder', hv, hvs⟩

/-- A token. -/
theorem token {kind : Terminal}
    (h : Lexeme.first? (t ++ s) = some (.token kind, t.length)) :
    Reads [.terminal kind] t s fun v => v.1.text = t := by
  refine ⟨[⟨.token kind, t⟩], .single h, fun offset loc => ?_⟩
  exact ⟨(⟨kind, t, offset, loc⟩, ()), loc, .single_token _ rfl, rfl⟩

/-- A blank in front. -/
theorem blank {P : Symbol.Values rhs → Prop} (h : Reads rhs t s P)
    (hfirst : ∀ c ∈ (t ++ s).head?, Lexeme.isSpace c = false) : Reads rhs (' ' :: t) s P := by
  obtain ⟨lexemes, hcuts, hder⟩ := h
  have hblank : Lexeme.first? (([' '] : Text) ++ (t ++ s)) = some (.trivia, 1) :=
    Lexeme.first?_blank hfirst
  refine ⟨⟨.trivia, [' ']⟩ :: lexemes, (Cuts.single hblank).append hcuts, fun offset loc => ?_⟩
  exact hder _ _

end Reads

namespace Nonterminal

variable {α : Type} {gives : (n : Nonterminal) → Decoded n.Value → α → Prop}

/-- A text, with another one behind it, is read as a nonterminal whose value gives something. -/
def ReadsWith (gives : (n : Nonterminal) → Decoded n.Value → α → Prop) (n : Nonterminal) (a : α)
    (t s : Text) : Prop := Splice.Reads [.nonterminal n] t s fun v => gives n v.1 a

/-- A nonterminal is read by one of its productions. -/
theorem reads_node {p : Production} {P : Symbol.Values p.rhs → Prop} {a : α} {t s : Text}
    (hp : p ∈ Production.all) (h : Splice.Reads p.rhs t s P)
    (hbuild : ∀ start inner, P inner → gives p.lhs (p.build start inner) a) :
    p.lhs.ReadsWith gives a t s := by
  obtain ⟨lexemes, hcuts, hder⟩ := h
  refine ⟨lexemes, hcuts, fun offset loc => ?_⟩
  obtain ⟨inner, start, hder, hinner⟩ := hder offset loc
  exact ⟨(p.build start inner, ()), start, .single_node hp hder, hbuild start inner hinner⟩

end Nonterminal

/-- A text that is read as a goal is parsed. -/
theorem parse_of_reads {goal : Goal} {t : Text} {P : goal.body.Value → Prop}
    (h : Reads [.nonterminal goal.body] t [] fun v => ∃ value, v.1 = .ok value ∧ P value) :
    ∃ value, parse goal t = .ok value ∧ P value := by
  obtain ⟨lexemes, hcuts, hder⟩ := h
  rw [List.append_nil] at hcuts
  obtain ⟨⟨_, ⟨⟩⟩, start, hder, value, rfl, hvalue⟩ := hder 0 .start
  refine ⟨value, parse_eq_ok_iff.2 ⟨Lexed.fault_eq_none_iff.2 ⟨lexemes, hcuts⟩, start, ?_⟩, hvalue⟩
  rw [Lexed.ofText_of_cuts hcuts first?_nil]
  exact hder

/-! ## The groups of the grammar -/

namespace Production

variable {p : Production} {k : Nat}

theorem mem_statements (h : statements[k]? = some p) : p ∈ all := by
  simp [all, List.mem_of_getElem? h]

theorem mem_functions (h : functions[k]? = some p) : p ∈ all := by
  simp [all, List.mem_of_getElem? h]

theorem mem_of_mem_operators (h : p ∈ operators) : p ∈ all := by simp [all, h]

theorem mem_operators (h : operators[k]? = some p) : p ∈ all :=
  mem_of_mem_operators (List.mem_of_getElem? h)

section Operators

variable {mark : Mark} {op : BinaryOp}

theorem mem_comparisons (h : (mark, op) ∈ BinaryOp.comparisons) :
    ⟨.comparison, [.nonterminal .sum, .mark mark, .nonterminal .sum],
      fun loc (l, _, r, ()) => binary loc op l r⟩ ∈ all := by
  refine mem_of_mem_operators ?_
  simp only [operators, List.mem_append]
  exact .inl (.inl (.inl (.inl (.inl (.inl (.inr (List.mem_map.2 ⟨_, h, rfl⟩)))))))

theorem mem_sums (h : (mark, op) ∈ BinaryOp.sums) :
    ⟨.sum, [.nonterminal .sum, .mark mark, .nonterminal .term],
      fun loc (l, _, r, ()) => binary loc op l r⟩ ∈ all := by
  refine mem_of_mem_operators ?_
  simp only [operators, List.mem_append]
  exact .inl (.inl (.inl (.inl (.inr (List.mem_map.2 ⟨_, h, rfl⟩)))))

theorem mem_products (h : (mark, op) ∈ BinaryOp.products) :
    ⟨.term, [.nonterminal .term, .mark mark, .nonterminal .unary],
      fun loc (l, _, r, ()) => binary loc op l r⟩ ∈ all := by
  refine mem_of_mem_operators ?_
  simp only [operators, List.mem_append]
  exact .inl (.inl (.inr (List.mem_map.2 ⟨_, h, rfl⟩)))

theorem mem_unaries {op : UnaryOp} (h : (mark, op) ∈ UnaryOp.marks) :
    ⟨.unary, [.mark mark, .nonterminal .unary], fun loc (_, operand, ()) => do
      let e ← operand
      return .unary loc op e⟩ ∈ all := by
  refine mem_of_mem_operators ?_
  simp only [operators, List.mem_append]
  exact .inr (List.mem_map.2 ⟨_, h, rfl⟩)

end Operators

theorem mem_operands (h : operands[k]? = some p) : p ∈ all := by
  simp [all, List.mem_of_getElem? h]

theorem mem_arguments (h : arguments[k]? = some p) : p ∈ all := by
  simp [all, List.mem_of_getElem? h]

theorem mem_types (h : types[k]? = some p) : p ∈ all := by simp [all, List.mem_of_getElem? h]

theorem mem_builtins (b : BuiltinType) :
    ⟨.builtinType, [.word (.builtin b)],
      fun loc _ => .ok (.namedType loc b.word)⟩ ∈ all := by
  have hb : b ∈ BuiltinType.all := by cases b <;> decide
  simp only [all, types, List.mem_append]
  exact .inr (.inl (.inl (.inr (List.mem_map.2 ⟨b, hb, rfl⟩))))

theorem mem_qualifiers (q : Qualifier) :
    ⟨.qualifiedType, [.word (.qualifier q), .mark .lparen, .nonterminal .type, .mark .rparen],
      fun loc (_, _, inner, _, ()) => do
        let t ← inner
        return .qualifiedType loc q t⟩ ∈ all := by
  have hq : q ∈ Qualifier.all := by cases q <;> decide
  simp only [all, types, List.mem_append]
  exact .inr (.inl (.inr (List.mem_map.2 ⟨q, hq, rfl⟩)))

end Production

/-! ## Texts of one token -/

/-- An operand is an expression. -/
theorem Derives.expr_of_primary {v : Decoded Node} {start : Loc} {tokens : List Token}
    (h : Derives [.nonterminal .primary] (v, ()) start tokens) :
    Derives [.nonterminal .expr] (v, ()) start tokens :=
  .single_node (Production.mem_operators (k := 0) rfl) <|
  .single_node (Production.mem_operators (k := 1) rfl) <|
  .single_node (Production.mem_operators (k := 3) rfl) <|
  .single_node (Production.mem_operators (k := 5) rfl) <|
  .single_node (Production.mem_operators (k := 12) rfl) <|
  .single_node (Production.mem_operators (k := 16) rfl) <|
  .single_node (Production.mem_operators (k := 20) rfl) <|
  .single_node (Production.mem_operands (k := 0) rfl) h

/-- A text of one token that is an operand is an expression with the value of the operand. -/
theorem readShape_operand {kind : Terminal} {build : Loc → Token × Unit → Decoded Node}
    {token : Token} {t : Text} (hp : ⟨.primary, [.terminal kind], build⟩ ∈ Production.all)
    (hkind : token.terminal = kind) (ht : Lexed.ofText t = ⟨[token], none⟩) :
    @readShape .expr t = .ok (build token.loc (token, ())) := by
  have hprimary := Derives.single_node hp (.single_token token hkind)
  refine readShape_eq_ok_iff.2 ⟨by rw [ht], token.loc, ?_⟩
  rw [ht]
  exact hprimary.expr_of_primary

end Splice
