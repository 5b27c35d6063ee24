import Splice.Parse.Fragment
import Splice.Proofs.Grammar.Parsing
import Splice.Proofs.Grammar.Sorted
import Splice.Proofs.Literal.Places

/-!
# The trees of parsed texts

What the parsers return is a tree of the right sort, and its interpolated literals stand in the
text in order.

* `parse_holds`: the tree of a text belongs where its goal puts it.
* `StandsIn`: an interpolated literal stands in a text and is shorter than it.
* `hasSort_of_parseExpr`, `hasSort_of_parseType`, `hasSort_of_parseProgram`: the three parsers.
-/

namespace Splice

theorem parse_holds {goal : Goal} {source : Text} {v : goal.body.Value}
    {Q : Interpolation → Prop} (h : parse goal source = .ok v)
    (hQ : ∀ token ∈ (Lexed.ofText source).tokens, token.terminal = .interpolatedLit →
      ∀ i, Interpolation.ofToken token = .ok i → Q i) : goal.body.Holds Q v := by
  obtain ⟨-, start, hder⟩ := parse_eq_ok_iff.1 h
  have hfits : ∀ token ∈ (Lexed.ofText source).tokens, token.Fits Q := by
    intro token htoken
    refine ⟨?_, hQ token htoken⟩
    obtain ⟨-, rest, -, -, -, hfirst⟩ := Lexed.standsIn_of_mem htoken
    exact ⟨rest, hfirst⟩
  exact (hder.holds hfits).1 v rfl

/-- An interpolated literal stands in a text, which is longer than its body. -/
def Interpolation.StandsIn (source : Text) (i : Interpolation) : Prop :=
  i.LaidOut (Loc.ofOffset source) source.length ∧ i.body.chars.length < source.length

theorem Interpolation.standsIn_of_mem {source : Text} :
    ∀ token ∈ (Lexed.ofText source).tokens, token.terminal = .interpolatedLit →
      ∀ i, ofToken token = .ok i → i.StandsIn source := by
  intro token htoken hkind i hi
  obtain ⟨forms, hwritten⟩ := writtenIn_of_token htoken hkind hi
  exact hwritten.laidOut

section Parsers

variable {source : Text}

theorem hasSort_of_parseExpr {e : Node} (h : parseExpr source = .ok e) :
    HasSort (Interpolation.StandsIn source) .expr e :=
  @parse_holds .expr source e _ h Interpolation.standsIn_of_mem

theorem hasSort_of_parseType {t : Node} (h : parseType source = .ok t) :
    HasSort (Interpolation.StandsIn source) (.type false) t :=
  @parse_holds .type source t _ h Interpolation.standsIn_of_mem

theorem hasSort_of_parseProgram {p : Program} (h : parseProgram source = .ok p) :
    ∀ s ∈ p, HasSort (Interpolation.StandsIn source) .statement s :=
  @parse_holds .program source p _ h Interpolation.standsIn_of_mem

end Parsers

end Splice
