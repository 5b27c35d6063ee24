import Mathlib.Data.List.Nodup
import Splice.Proofs.Literal.Places

/-!
# The order of tokens

The tokens of a text stand one behind the other and have at least one character each. So their
places rise, and a place of the text tells which of its tokens begins there.

* `Lexed.pairwise_before`: each token ends before the next ones begin.
* `Lexed.pairwise_loc_lt`: the places of the tokens rise.
* `Loc.one_le_ofOffset`: lines and columns are counted from one.
-/

namespace Splice

/-- One token ends before the other one begins. -/
def Token.Before (a b : Token) : Prop := a.offset + a.text.length ≤ b.offset

/-- The tokens of lexemes stand one behind the other, from where the lexemes start. -/
theorem Cuts.pairwise_before {t rest : Text} {lexemes : List Lexeme} (h : Cuts t lexemes rest)
    (offset : Nat) (loc : Loc) :
    (∀ token ∈ tokensOf lexemes offset loc, offset ≤ token.offset) ∧
      (tokensOf lexemes offset loc).Pairwise Token.Before := by
  induction h generalizing offset loc with
  | done t => exact ⟨nofun, .nil⟩
  | @next t rest kind n lexemes first _ ih =>
    obtain ⟨hlater, hpairwise⟩ := ih (offset + (t.take n).length) (loc.advanceAll (t.take n))
    have hbehind : ∀ token ∈ tokensOf lexemes (offset + (t.take n).length)
        (loc.advanceAll (t.take n)), offset ≤ token.offset := by
      intro token htoken
      have := hlater token htoken
      omega
    cases kind with
    | trivia => exact ⟨hbehind, hpairwise⟩
    | token terminal =>
      exact ⟨List.forall_mem_cons.2 ⟨Nat.le_refl _, hbehind⟩, .cons hlater hpairwise⟩

namespace Lexed

/-- Each token of a text ends before the next ones begin. -/
theorem pairwise_before (source : Text) : (ofText source).tokens.Pairwise Token.Before := by
  obtain ⟨lexemes, rest, hcuts, hnone⟩ := exists_cuts source
  rw [ofText_of_cuts hcuts hnone]
  exact (hcuts.pairwise_before 0 .start).2

theorem pairwise_offset_lt (source : Text) :
    (ofText source).tokens.Pairwise fun a b => a.offset < b.offset := by
  refine (pairwise_before source).imp_of_mem fun {a b} ha _ hab => ?_
  have hpos := List.length_pos_of_ne_nil (standsIn_of_mem ha).text_ne_nil
  rw [Token.Before] at hab
  omega

/-- A token of a text is the one that begins at its offset. -/
theorem eq_of_offset_eq {source : Text} {a b : Token} (ha : a ∈ (ofText source).tokens)
    (hb : b ∈ (ofText source).tokens) (h : a.offset = b.offset) : a = b := by
  have hnodup : ((ofText source).tokens.map Token.offset).Nodup :=
    List.pairwise_map.2 ((pairwise_offset_lt source).imp Nat.ne_of_lt)
  exact List.inj_on_of_nodup_map hnodup ha hb h

/-- The places of the tokens of a text rise. -/
theorem pairwise_loc_lt (source : Text) :
    (ofText source).tokens.Pairwise fun a b => a.loc < b.loc := by
  refine (pairwise_offset_lt source).imp_of_mem fun {a b} ha hb hab => ?_
  rw [(Token.loc_eq_ofOffset ha).2, (Token.loc_eq_ofOffset hb).2]
  exact Loc.ofOffset_lt source hab (Token.loc_eq_ofOffset hb).1

end Lexed

namespace Loc

protected theorem lt_irrefl (a : Loc) : ¬ a < a := by
  rw [lt_def]
  omega

protected theorem le_of_lt {a b : Loc} (h : a < b) : a ≤ b := by
  rw [lt_def] at h
  rw [le_def]
  omega

theorem one_le_column_advanceAll {loc : Loc} (h : 1 ≤ loc.column) (t : Text) :
    1 ≤ (loc.advanceAll t).column := by
  induction t generalizing loc with
  | nil => exact h
  | cons c t ih =>
    refine ih ?_
    unfold advance
    split
    · exact Int.le_refl 1
    · exact Int.le_trans h (Int.le_of_lt (Int.lt_succ _))

/-- Lines and columns of a source are counted from one. -/
theorem one_le_ofOffset (source : Text) (offset : Nat) :
    1 ≤ (ofOffset source offset).line ∧ 1 ≤ (ofOffset source offset).column :=
  ⟨line_le_advanceAll .start _, one_le_column_advanceAll (Int.le_refl 1) _⟩

end Loc

end Splice
