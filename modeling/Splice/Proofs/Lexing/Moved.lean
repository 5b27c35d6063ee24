import Splice.Proofs.Lexing.Spelling
import Splice.Grammar.Lexer

/-!
# Texts that stand elsewhere

The tokens of a text do not depend on where it stands, except that their places do. Blanks in front
of a text only move it, even where it begins with blanks itself.

* `Loc.IsMove`: maps of locations under which texts stay together.
* `Lexed.scan_move`: a text that stands elsewhere.
* `Lexed.ofText_indented`: a text behind line feeds and spaces.
-/

namespace Splice

/-! ## Moving locations -/

namespace Loc

/-- A map of the locations of a text under which the text stays together: what stands behind a
character is moved with it. -/
structure IsMove (f : Loc → Loc) : Prop where
  right : ∀ loc n, f (loc.right n) = (f loc).right n
  advance : ∀ loc c, 1 ≤ loc.line → f (loc.advance c) = (f loc).advance c

/-- A fragment stays together where it stands. -/
theorem isMove_within (origin : Loc) : IsMove (·.within origin) := by
  refine ⟨fun loc n => ?_, fun loc c hline => ?_⟩
  · unfold within right
    by_cases h : loc.line = 1
    · simp only [h, if_true, mk.injEq, true_and]
      omega
    · simp only [h, if_false]
  · have hbelow : loc.line + 1 ≠ 1 := by omega
    unfold within advance
    by_cases hc : c = '\n'
    · simp only [hc, if_true, hbelow, if_false]
      split
      · next h =>
        simp only [h, mk.injEq, and_true]
        omega
      · simp only [mk.injEq, and_true]
        omega
    · simp only [hc, if_false]
      split
      · simp only [mk.injEq, true_and]
        omega
      · rfl

theorem one_le_line_advance {loc : Loc} (h : 1 ≤ loc.line) (c : CodePoint) :
    1 ≤ (loc.advance c).line := by
  unfold advance
  split
  · exact Int.le_add_one h
  · exact h

theorem one_le_line_right {loc : Loc} (h : 1 ≤ loc.line) (n : Int) : 1 ≤ (loc.right n).line := h

end Loc

/-- The token of a text that stands `distance` characters further behind. -/
def Token.move (distance : Nat) (f : Loc → Loc) (token : Token) : Token :=
  { token with offset := token.offset + distance, loc := f token.loc }

/-- The fault of a text that stands `distance` characters further behind. -/
def LexicalFault.move (distance : Nat) (f : Loc → Loc) (fault : LexicalFault) : LexicalFault :=
  { fault with offset := fault.offset + distance, loc := f fault.loc }

namespace Lexed

/-- The tokens of a text that stands `distance` characters further behind. -/
def move (distance : Nat) (f : Loc → Loc) (l : Lexed) : Lexed :=
  ⟨l.tokens.map (Token.move distance f), l.fault.map (LexicalFault.move distance f)⟩

/-- A text that stands elsewhere has the same tokens there. -/
theorem scan_move {f : Loc → Loc} (hf : Loc.IsMove f) (distance : Nat) (t : Text)
    (pending offset : Nat) {loc : Loc} (hloc : 1 ≤ loc.line) :
    scan t pending (offset + distance) (f loc) = (scan t pending offset loc).move distance f := by
  induction t generalizing pending offset loc with
  | nil => rfl
  | cons c rest ih =>
    have hrest (pending : Nat) : scan rest pending (offset + distance + 1) ((f loc).advance c) =
        (scan rest pending (offset + 1) (loc.advance c)).move distance f := by
      rw [← hf.advance loc c hloc, Nat.add_right_comm]
      exact ih pending (offset + 1) (Loc.one_le_line_advance hloc c)
    cases pending with
    | succ pending => exact hrest pending
    | zero =>
      rw [scan, scan]
      split
      · rfl
      · next kind length _ =>
        simp only [hrest]
        cases kind with
        | trivia => rfl
        | token terminal => rfl

/-! ## Blanks -/

/-- A blank in front of a text only moves it. -/
theorem scan_blank {b : CodePoint} (hb : Lexeme.isSpace b = true) (t : Text) (offset : Nat)
    (loc : Loc) :
    scan (b :: t) 0 offset loc = scan t 0 (offset + 1) (loc.advance b) := by
  rw [scan, Lexeme.first?_of_isSpace hb]
  cases t with
  | nil => rfl
  | cons c rest =>
    -- The blanks at the start of the text are a lexeme of their own, if there are any.
    by_cases hc : Lexeme.isSpace c = true
    · have hlength : lengthWhile Lexeme.isSpace (c :: rest) =
          lengthWhile Lexeme.isSpace rest + 1 := by
        rw [lengthWhile, List.takeWhile_cons, if_pos hc]
        rfl
      rw [scan, Lexeme.first?_of_isSpace hc]
      simp only [hlength, Nat.add_sub_cancel, scan]
    · have hlength : lengthWhile Lexeme.isSpace (c :: rest) = 0 := by
        rw [lengthWhile, List.takeWhile_cons, if_neg hc]
        rfl
      simp only [hlength, Nat.zero_add, Nat.sub_self]

theorem scan_blanks {bs : Text} (hbs : ∀ b ∈ bs, Lexeme.isSpace b = true) (t : Text) (offset : Nat)
    (loc : Loc) :
    scan (bs ++ t) 0 offset loc = scan t 0 (offset + bs.length) (loc.advanceAll bs) := by
  induction bs generalizing offset loc with
  | nil => rfl
  | cons b bs ih =>
    obtain ⟨hb, hbs⟩ := List.forall_mem_cons.1 hbs
    rw [List.cons_append, scan_blank hb, ih hbs, List.length_cons, Nat.add_assoc,
      Nat.add_comm 1 bs.length]
    rfl

end Lexed

/-- Line feeds, and spaces behind them. -/
def Text.indentation (lines columns : Nat) : Text :=
  (List.replicate lines '\n' : Text) ++ (List.replicate columns ' ' : Text)

/-- A text behind line feeds and spaces. -/
def Text.indented (lines columns : Nat) (t : Text) : Text :=
  indentation lines columns ++ t

theorem Loc.advanceAll_lines (n : Nat) :
    start.advanceAll (List.replicate n '\n') = ⟨n + 1, 1⟩ := by
  induction n with
  | zero => rfl
  | succ n ih =>
    rw [List.replicate_succ', advanceAll_append, ih]
    simp [advanceAll, advance]

/-- The tokens of a text behind line feeds and spaces. -/
theorem Lexed.ofText_indented (lines columns : Nat) (t : Text) :
    ofText (t.indented lines columns) =
      (ofText t).move (lines + columns) (·.within ⟨lines + 1, columns + 1⟩) := by
  have hblanks : ∀ b ∈ Text.indentation lines columns, Lexeme.isSpace b = true := by
    refine List.forall_mem_append.2 ⟨fun b hb => ?_, fun b hb => ?_⟩
    · rw [List.eq_of_mem_replicate hb]
      rfl
    · rw [List.eq_of_mem_replicate hb]
      rfl
  have hstart : Loc.start.advanceAll (Text.indentation lines columns) =
      Loc.start.within ⟨lines + 1, columns + 1⟩ := by
    have hcolumns : ↑ '\n' ∉ (List.replicate columns ' ' : Text) := fun h => by simp at h
    rw [Text.indentation, Loc.advanceAll_append, Loc.advanceAll_lines,
      Loc.advanceAll_of_notMem hcolumns, List.length_replicate]
    simp only [Loc.right, Loc.within, Loc.start, if_true, Loc.mk.injEq, true_and]
    omega
  rw [Text.indented, ofText, scan_blanks hblanks, hstart, Text.indentation, List.length_append,
    List.length_replicate, List.length_replicate]
  exact scan_move (Loc.isMove_within _) _ t 0 0 (Int.le_refl 1)

end Splice
