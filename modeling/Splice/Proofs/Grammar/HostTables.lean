import Splice.Proofs.Grammar.Traces

/-!
# The tables of the host grammar

The automata of the host grammar pass the test of `Automaton.check`, and that of programs also the
test of `Automaton.trace`. The kernel computes the automata for this from the rules of the grammar,
so this module takes long to build and holds nothing else.
-/

namespace Splice

namespace Automaton

/-- What can follow the nonterminals of programs. -/
def followPrograms : PackedTable :=
  (shifting .host [(Symbol.nonterminal (.whole .program)).code]).follow

/-- What can follow the nonterminals of single expressions and types. -/
def followFragments : PackedTable :=
  (shifting .host
    [(Symbol.nonterminal (.whole .expr)).code, (Symbol.nonterminal (.whole .type)).code]).follow

-- Both tests in one evaluation, so that the automaton is computed once for them.
theorem test_programs :
    programs.check followPrograms [(Symbol.nonterminal .program).code] = true ∧
      programs.trace [(Symbol.nonterminal .program).code] = true := by
  decide +kernel

theorem check_programs :
    programs.check followPrograms [(Symbol.nonterminal .program).code] = true :=
  test_programs.1

theorem check_fragments :
    fragments.check followFragments
      [(Symbol.nonterminal .expr).code, (Symbol.nonterminal .type).code] = true := by
  decide +kernel

end Automaton

end Splice
