import Splice.Parse.Source
import Splice.Proofs.Lexing.Spaced
import Splice.Proofs.Literal.Places
import Splice.Proofs.Phrase.Carried
import Splice.Proofs.Printing.Operators

/-!
# Programs with more blanks and comments in them

Blanks and comments that are inserted right before or right behind a token push what stands behind
them. The program is the same but for its places.

* `Loc.pushed`: where a place is pushed to.
* `tokensOf_before`, `tokensOf_behind`: the tokens on the two sides of an insertion.
* `parseProgram_spaced`: the program of such a text.
* `readSource_insert`: blanks and comments beside a token.
-/

namespace Splice

/-! ## Places behind an insertion -/

namespace Loc

instance (a b : Loc) : Decidable (a < b) := inferInstanceAs (Decidable (_ ∨ _))

/-- Where a place is pushed to when the text from `place` on moves to `target`. What stands in the
same line goes along with it, and the later lines stay whole. -/
def pushed (place target loc : Loc) : Loc :=
  if loc < place then loc
  else ⟨loc.line - place.line + target.line,
    if loc.line = place.line then loc.column - place.column + target.column else loc.column⟩

variable {place target loc : Loc}

theorem not_lt_of_le (h : place ≤ loc) : ¬ loc < place := by
  rw [lt_def]
  rw [le_def] at h
  omega

theorem pushed_self : pushed place target place = target := by
  rw [pushed, if_neg (not_lt_of_le (Loc.le_refl place)), if_pos rfl, Int.sub_self, Int.sub_self,
    Int.zero_add, Int.zero_add]

/-- What stands behind the insertion goes on in the same way as before. -/
theorem pushed_advance (h : place ≤ loc) (c : CodePoint) :
    pushed place target (loc.advance c) = (pushed place target loc).advance c := by
  have hthere := Loc.le_trans h (loc.le_advance c)
  have hline : place.line ≤ loc.line := by
    rw [le_def] at h
    omega
  rw [pushed, pushed, if_neg (not_lt_of_le h), if_neg (not_lt_of_le hthere)]
  by_cases hc : c = '\n'
  · have hbelow : loc.line + 1 ≠ place.line := by omega
    simp only [advance, hc, if_true, hbelow, if_false, mk.injEq, and_true]
    omega
  · simp only [advance, hc, if_false, mk.injEq, true_and]
    split <;> omega

theorem pushed_advanceAll_of_le (h : place ≤ loc) (t : Text) :
    pushed place target (loc.advanceAll t) = (pushed place target loc).advanceAll t := by
  induction t generalizing loc with
  | nil => rfl
  | cons c t ih =>
    have hlater := ih (Loc.le_trans h (loc.le_advance c))
    rw [pushed_advance h] at hlater
    exact hlater

theorem follows_pushed (h : place ≤ loc) (t : Text) : Follows (pushed place target) loc t :=
  fun p _ => pushed_advanceAll_of_le h p

theorem lt_advanceAll (loc : Loc) {t : Text} (h : t ≠ []) : loc < loc.advanceAll t := by
  obtain ⟨c, t, rfl⟩ := List.exists_cons_of_ne_nil h
  exact lt_of_lt_of_le (loc.lt_advance c) (le_advanceAll _ t)

/-- What stands before the insertion stays where it is. -/
theorem pushed_advanceAll {t s : Text} (h : loc.advanceAll (t ++ s) = place) (hs : s ≠ []) :
    pushed place target (loc.advanceAll t) = loc.advanceAll t := by
  refine if_pos ?_
  rw [← h, advanceAll_append]
  exact lt_advanceAll _ hs

theorem follows_pushed_of_append {t s : Text} (h : loc.advanceAll (t ++ s) = place) (hs : s ≠ []) :
    Follows (pushed place target) loc t := by
  rintro p ⟨later, rfl⟩
  rw [List.append_assoc] at h
  have hhere : pushed place target loc = loc :=
    pushed_advanceAll (t := []) h (by simp [hs])
  rw [hhere, pushed_advanceAll h (by simp [hs])]

end Loc

/-! ## Tokens around an insertion -/

variable {f : Loc → Loc} {g : Nat → Nat}

/-- Where an offset is pushed to by `width` characters that are inserted at the offset `place`. -/
def pushedOffset (place width offset : Nat) : Nat :=
  if offset < place then offset else offset + width

theorem mem_tokensOf {ls : List Lexeme} {offset : Nat} {loc : Loc} {token : Token}
    (h : token ∈ tokensOf ls offset loc) : ∃ p s, joined ls = p ++ (token.text ++ s) ∧
      token.offset = offset + p.length ∧ token.loc = loc.advanceAll p := by
  obtain ⟨earlier, later, htokens⟩ := List.append_of_mem h
  obtain ⟨front, back, rfl, -, hoffset, hloc⟩ := tokensOf_eq_append htokens
  exact ⟨joined front, joined back, by simp, hoffset, hloc⟩

/-- The tokens of lexemes that stand further behind. -/
theorem tokensOf_carry {ls : List Lexeme} {offset width : Nat} {loc : Loc}
    (hg : ∀ k, offset ≤ k → g k = k + width) (hf : Loc.Follows f loc (joined ls)) :
    tokensOf ls (offset + width) (f loc) = carryAll g f (tokensOf ls offset loc) := by
  induction ls generalizing offset loc with
  | nil => rfl
  | cons l ls ih =>
    obtain ⟨kind, t⟩ := l
    have ht : f (loc.advanceAll t) = (f loc).advanceAll t := hf t (List.prefix_append t _)
    have hlater : tokensOf ls (offset + t.length + width) (f (loc.advanceAll t)) =
        carryAll g f (tokensOf ls (offset + t.length) (loc.advanceAll t)) :=
      ih (fun k hk => hg k (by omega)) hf.of_append
    rw [Nat.add_right_comm, ht] at hlater
    cases kind with
    | trivia => exact hlater
    | token terminal =>
      rw [tokensOf, tokensOf, hlater, carryAll_cons, Token.carry, hg offset (Nat.le_refl _)]

/-- An interpolated literal stays together up to its closing quote if its text does. -/
theorem Token.StandsIn.isCarried {source : Text} {token : Token} (h : token.StandsIn source)
    (hkind : token.terminal = .interpolatedLit)
    (hf : Loc.Follows f token.loc token.text.dropLast) : token.IsCarried f := by
  obtain ⟨c, -, htext, hright⟩ := h.interpolated hkind
  have hinner : token.text.dropLast = [c, '"'] ++ token.inner 2 := by
    rw [htext, ← List.cons_append, ← List.cons_append, List.dropLast_concat]
    rfl
  rw [hinner] at hf
  have hquote := hf [c, '"'] (List.prefix_append _ _)
  refine ⟨?_, ?_⟩
  · rw [← hright, ← hright, hquote]
  · rw [← hright]
    exact hf.of_append

section Insertion

variable {before after w : Text} {front back : List Lexeme}

/-- Where the places of a source are pushed to by an insertion behind its beginning. -/
def pushedBehind (before w : Text) : Loc → Loc :=
  Loc.pushed (Loc.start.advanceAll before) ((Loc.start.advanceAll before).advanceAll w)

/-- The tokens before an insertion stay where they are. -/
theorem tokensOf_before (hfront : Cuts (before ++ after) front after) (hback : Cuts after back []) :
    carryAll (pushedOffset before.length w.length) (pushedBehind before w)
      (tokensOf front 0 .start) = tokensOf front 0 .start := by
  refine (List.map_congr_left fun token htoken => ?_).trans (List.map_id _)
  have hmem : token ∈ (Lexed.ofText (before ++ after)).tokens := by
    rw [Lexed.ofText_append hfront hback]
    exact List.mem_append_left _ htoken
  have hne := (Lexed.standsIn_of_mem hmem).text_ne_nil
  obtain ⟨p, s, hjoined, hoffset, hloc⟩ := mem_tokensOf htoken
  rw [List.append_cancel_right hfront.text_eq.symm] at hjoined
  have hlt : token.offset < before.length := by
    have := List.length_pos_iff.2 hne
    rw [hoffset, hjoined]
    simp only [List.length_append]
    omega
  have hplace : pushedBehind before w token.loc = token.loc := by
    rw [hloc]
    refine Loc.pushed_advanceAll (s := token.text ++ s) (by rw [← hjoined]) ?_
    simp [hne]
  rw [Token.carry, hplace, pushedOffset, if_pos hlt]
  rfl

/-- The tokens behind an insertion are pushed. -/
theorem tokensOf_behind :
    carryAll (pushedOffset before.length w.length) (pushedBehind before w)
        (tokensOf back before.length (Loc.start.advanceAll before)) =
      tokensOf back (before.length + w.length)
        ((Loc.start.advanceAll before).advanceAll w) := by
  have hg (k : Nat) (hk : before.length ≤ k) :
      pushedOffset before.length w.length k = k + w.length := if_neg (Nat.not_lt_of_le hk)
  have hfollows : Loc.Follows (pushedBehind before w) (Loc.start.advanceAll before)
      (joined back) := Loc.follows_pushed (Loc.le_refl _) _
  rw [← tokensOf_carry hg hfollows, pushedBehind, Loc.pushed_self]

/-- The literals around an insertion stay together. -/
theorem carried_pushed (hfront : Cuts (before ++ after) front after) (hback : Cuts after back []) :
    Carried (pushedBehind before w) (Lexed.ofText (before ++ after)).tokens := by
  intro token htoken hkind
  have hstands := Lexed.standsIn_of_mem htoken
  refine hstands.isCarried hkind ?_
  rw [Lexed.ofText_append hfront hback] at htoken
  rcases List.mem_append.1 htoken with htoken | htoken
  · obtain ⟨p, s, hjoined, -, hloc⟩ := mem_tokensOf htoken
    rw [List.append_cancel_right hfront.text_eq.symm] at hjoined
    -- Its closing quote stands before the insertion, so everything before the quote does.
    refine Loc.follows_pushed_of_append
      (s := token.text.getLast hstands.text_ne_nil :: s) ?_ (List.cons_ne_nil _ _)
    rw [List.append_cons, List.dropLast_append_getLast, hloc, ← Loc.advanceAll_append, ← hjoined]
  · obtain ⟨p, -, -, -, hloc⟩ := mem_tokensOf htoken
    rw [hloc]
    exact Loc.follows_pushed (Loc.le_advanceAll _ p) _

end Insertion

/-! ## Programs -/

/-- Blanks and comments beside a token push the program behind them. -/
theorem parseProgram_spaced {before after : Text} {p : Program}
    (h : parseProgram (before ++ after) = .ok p)
    (hbeside : BesideToken (before ++ after) before.length) {b : CodePoint} {w : Text}
    (hb : Lexeme.isSpace b = true) (hw : Trivia (b :: w)) :
    parseProgram (before ++ (b :: w ++ after)) =
      .ok (p.map (Node.mapLoc (pushedBehind before (b :: w)))) := by
  obtain ⟨hfault, start, hder⟩ := (@parse_eq_ok_iff .program _ _).1 h
  obtain ⟨front, back, hfront, hback, hend⟩ := hbeside.exists_cuts hfault
  have htokens := Lexed.ofText_append hfront hback
  have hopens : ¬ OpensComment (tokensOf front 0 .start) := by
    rintro ⟨slash, star, hinside, hopens⟩
    rw [htokens] at hder
    exact hder.not_opensComment
      ⟨slash, star, hinside.trans (List.prefix_append _ _).isInfix, hopens⟩
  refine parseProgram_carry (g := pushedOffset before.length (b :: w).length) h
    (carried_pushed hfront hback) ?_
  rw [Lexed.ofText_spaced hfront hback hopens hend hb hw, htokens, carryAll_append,
    tokensOf_before hfront hback, tokensOf_behind]

theorem readSource_eq_ok {file : Option Text} {source : Text} {p : Program} :
    readSource file source = .ok (.ok p) ↔ parseProgram source = .ok p := by
  unfold readSource
  split
  next program hparse => rw [hparse]; simp
  next e hparse => rw [hparse]; simp
  next fault hparse =>
    rw [hparse]
    cases fault.diagnostic file <;> simp [Except.map]

theorem BesideToken.le_length {source : Text} {offset : Nat} (h : BesideToken source offset) :
    offset ≤ source.length := by
  obtain ⟨token, htoken, hoffset⟩ := h
  obtain ⟨before, rest, rfl, hstart, -⟩ := Lexed.standsIn_of_mem htoken
  simp only [List.length_append]
  omega

/-- Blanks and comments may stand right before and right behind every token, provided that a blank
comes first. The program does not change but for its places. -/
theorem readSource_insert {file : Option Text} {source : Text} {p : Program}
    (h : readSource file source = .ok (.ok p)) {offset : Nat} (hoffset : BesideToken source offset)
    {b : CodePoint} {w : Text} (hb : Lexeme.isSpace b = true) (hw : Trivia (b :: w)) :
    ∃ p', readSource file (source.take offset ++ b :: w ++ source.drop offset) = .ok (.ok p') ∧
      p'.map Node.bare = p.map Node.bare := by
  have hsplit := List.take_append_drop offset source
  have hlength : (source.take offset).length = offset := by
    rw [List.length_take, Nat.min_eq_left hoffset.le_length]
  have hbeside : BesideToken (source.take offset ++ source.drop offset)
      (source.take offset).length := by
    rwa [hsplit, hlength]
  have hparse : parseProgram (source.take offset ++ source.drop offset) = .ok p := by
    rwa [hsplit, ← readSource_eq_ok]
  have hspaced := parseProgram_spaced hparse hbeside hb hw
  rw [← List.append_assoc] at hspaced
  refine ⟨_, readSource_eq_ok.2 hspaced, ?_⟩
  rw [List.map_map]
  exact List.map_congr_left fun s _ => s.bare_mapLoc _

/-- A comment behind a slash. -/
theorem readSource_insert_comment :
    let source : Text := "a/b;"
    ∃ p, readSource none source = .ok (.ok p) ∧ BesideToken source 2 ∧
      Lexeme.isSpace ' ' = true ∧ Trivia (' ' :: "/*c*/") ∧
      ∃ p', readSource none "a/ /*c*/b;" = .ok (.ok p') ∧
        p'.map Node.bare = p.map Node.bare := by
  intro source
  have htokens : (Lexed.ofText source).tokens =
      [⟨.name, ['a'], 0, ⟨1, 1⟩⟩, ⟨.mark .slash, ['/'], 1, ⟨1, 2⟩⟩, ⟨.name, ['b'], 2, ⟨1, 3⟩⟩,
        ⟨.mark .semicolon, [';'], 3, ⟨1, 4⟩⟩] := by decide
  have hname {token : Token} (h : token.terminal = .name) :
      Phrase .unary [token] (.name token.loc token.text) := .ofSuffixed (.ofPrimary (.name h))
  have hquotient : Phrase .term [⟨.name, ['a'], 0, ⟨1, 1⟩⟩, ⟨.mark .slash, ['/'], 1, ⟨1, 2⟩⟩,
      ⟨.name, ['b'], 2, ⟨1, 3⟩⟩] (.binary ⟨1, 1⟩ .div (.name ⟨1, 1⟩ ['a']) (.name ⟨1, 3⟩ ['b'])) :=
    .product (m := .slash) (by decide) (.ofUnary (hname rfl)) rfl (hname rfl)
  have hstatement : Phrase .statement (Lexed.ofText source).tokens
      (.evaluate ⟨1, 1⟩ (.binary ⟨1, 1⟩ .div (.name ⟨1, 1⟩ ['a']) (.name ⟨1, 3⟩ ['b']))) := by
    rw [htokens]
    exact .evaluate (.ofConjunction (.ofComparison (.ofSum (.ofTerm hquotient)))) rfl
  have hparse : readSource none source = .ok (.ok [_]) :=
    readSource_eq_ok.2 ((@parse_eq_ok_iff_isTree .program _ _).2
      ⟨by decide, [(_, _)], by simp, rfl, List.forall_mem_singleton.2 hstatement⟩)
  have hbeside : BesideToken source 2 :=
    ⟨⟨.mark .slash, ['/'], 1, ⟨1, 2⟩⟩, htokens ▸ .tail _ (.head _), .inr rfl⟩
  have htrivia : Trivia (' ' :: "/*c*/") :=
    .blank rfl (.blockComment (t := (['c'] : Text)) (fun h => absurd h.length_le (by simp)) .nil)
  have hinsert : source.take 2 ++ ↑ ' ' :: ("/*c*/" : Text) ++ source.drop 2 = "a/ /*c*/b;" := by
    decide
  have hresult := readSource_insert hparse hbeside rfl htrivia
  rw [hinsert] at hresult
  exact ⟨_, hparse, hbeside, rfl, htrivia, hresult⟩

end Splice
