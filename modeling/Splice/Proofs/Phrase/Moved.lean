import Splice.Proofs.Lexing.Moved
import Splice.Proofs.Literal.Places
import Splice.Proofs.Phrase.Carried

/-!
# Trees of texts that stand elsewhere

A text that is moved has the tree that it had before, with every location moved: those of the nodes,
and those of the characters of the interpolated literals.

* `Loc.IsMove.carried`: the tokens of a text stay together when it is moved.
* `parseProgram_indented`: a text behind line feeds and spaces.
-/

namespace Splice

variable {f : Loc → Loc}

theorem Loc.IsMove.advanceAll (hf : IsMove f) (t : Text) {loc : Loc} (hloc : 1 ≤ loc.line) :
    f (loc.advanceAll t) = (f loc).advanceAll t := by
  induction t generalizing loc with
  | nil => rfl
  | cons c t ih =>
    have hlater := ih (one_le_line_advance hloc c)
    rw [hf.advance loc c hloc] at hlater
    exact hlater

/-- The tokens of a text stay together when it is moved. -/
theorem Loc.IsMove.carried (hf : IsMove f) (source : Text) :
    Carried f (Lexed.ofText source).tokens := by
  intro token htoken _
  have hline : 1 ≤ token.loc.line := by
    rw [(Token.loc_eq_ofOffset htoken).2]
    exact line_le_advanceAll .start _
  exact ⟨hf.right token.loc 2, fun p _ => hf.advanceAll p (one_le_line_right hline 2)⟩

/-- A program behind line feeds and spaces is moved as a whole. -/
theorem parseProgram_indented {source : Text} {p : Program} (h : parseProgram source = .ok p)
    (lines columns : Nat) : parseProgram (source.indented lines columns) =
      .ok (p.map (Node.relocate ⟨lines + 1, columns + 1⟩)) := by
  have hfault := ((@parse_eq_ok_iff_isTree .program source p).1 h).1
  refine parseProgram_carry (g := (· + (lines + columns))) h
    ((Loc.isMove_within _).carried source) ?_
  rw [Lexed.ofText_indented, Lexed.move, hfault]
  rfl

end Splice
