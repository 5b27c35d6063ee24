import Splice.Grammar.Reader

/-!
# Derivations

The host grammar as a relation, without an automaton. `Derives rhs values start tokens` says that
the row of symbols `rhs` derives the row of tokens, that the symbols then stand for `values`, and
that the first of them starts at `start` (`Loc.start` if there is none).

* `Derives.cons`: a derivation of one symbol stands in front of one of a row.
* `Derives.single_node`: a nonterminal stands for what one of its productions builds.
* `Stack.Covers`: the frames of a stack derive the tokens read so far; `Covers.pop`: what `pop`
  takes off a stack is a derivation of the right side.
-/

namespace Splice

/-- The symbols on the left derive the tokens on the right. -/
inductive Derives : (rhs : List Symbol) → Symbol.Values rhs → Loc → List Token → Prop
  | nil : Derives [] () .start []
  | token {t : Terminal} {rest : List Symbol} {values : Symbol.Values rest} {start : Loc}
      {tokens : List Token} (token : Token) (kind : token.terminal = t)
      (later : Derives rest values start tokens) :
      Derives (.terminal t :: rest) (token, values) token.loc (token :: tokens)
  | node {p : Production} {rest : List Symbol} {inner : Symbol.Values p.rhs}
      {values : Symbol.Values rest} {start start' : Loc} {tokens tokens' : List Token}
      (mem : p ∈ Production.all) (below : Derives p.rhs inner start tokens)
      (later : Derives rest values start' tokens') :
      Derives (.nonterminal p.lhs :: rest) (p.build start inner, values) start (tokens ++ tokens')

namespace Derives

variable {s : Symbol} {rest : List Symbol} {v : s.Value} {values : Symbol.Values rest}
  {start start' : Loc} {tokens tokens' : List Token}

/-- One symbol in front of a row of symbols. -/
theorem cons (first : Derives [s] (v, ()) start tokens)
    (later : Derives rest values start' tokens') :
    Derives (s :: rest) (v, values) start (tokens ++ tokens') := by
  cases first with
  | token token kind last =>
    cases last
    exact .token token kind later
  | node mem below last =>
    cases last
    rw [List.append_nil]
    exact .node mem below later

/-- The derivation of a nonterminal by one of its productions. -/
theorem single_node {p : Production} {inner : Symbol.Values p.rhs} (mem : p ∈ Production.all)
    (below : Derives p.rhs inner start tokens) :
    Derives [.nonterminal p.lhs] (p.build start inner, ()) start tokens := by
  rw [← List.append_nil tokens]
  exact .node mem below .nil

/-- A derivation of a row is one of its first symbol and one of the others. -/
theorem uncons {all : Symbol.Values (s :: rest)} (h : Derives (s :: rest) all start tokens) :
    ∃ front back start', tokens = front ++ back ∧ Derives [s] (all.1, ()) start front ∧
      Derives rest all.2 start' back := by
  cases h with
  | token token kind later => exact ⟨[token], _, _, rfl, .token token kind .nil, later⟩
  | node mem below later => exact ⟨_, _, _, rfl, single_node mem below, later⟩

/-- The derivation of a terminal by a token of its kind. -/
theorem single_token {t : Terminal} (token : Token) (kind : token.terminal = t) :
    Derives [.terminal t] (token, ()) token.loc [token] := .token token kind .nil

end Derives

/-- The frames of a stack derive the tokens, those of the top frame last. -/
inductive Stack.Covers : Stack → List Token → Prop
  | empty : Stack.Covers [] []
  | push {stack : Stack} {tokens : List Token} {frame : Frame} {own : List Token}
      (below : Stack.Covers stack tokens)
      (top : Derives [frame.symbol] (frame.value, ()) frame.start own) :
      Stack.Covers (frame :: stack) (tokens ++ own)

/-- What is taken off a stack derives the last ones of its tokens. -/
theorem Stack.Covers.pop {rhs : List Symbol} {stack below : Stack} {tokens : List Token}
    {values : Symbol.Values rhs} {start : Loc} (h : Stack.Covers stack tokens)
    (hp : stack.pop rhs = some (values, start, below)) :
    ∃ front back, tokens = front ++ back ∧ Stack.Covers below front ∧
      Derives rhs values start back := by
  induction rhs generalizing start below with
  | nil =>
    cases hp
    exact ⟨tokens, [], (List.append_nil _).symm, h, .nil⟩
  | cons s rest ih =>
    rw [Stack.pop] at hp
    split at hp
    next later start' frame below' hrest =>
      split at hp
      next hs =>
        obtain ⟨front, back, rfl, hcover, hder⟩ := ih hrest
        subst hs
        cases hp
        cases hcover with
        | push hbelow htop =>
          exact ⟨_, _, List.append_assoc .., hbelow, htop.cons hder⟩
      next => cases hp
    next => cases hp

end Splice
