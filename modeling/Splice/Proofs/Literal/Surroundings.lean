import Splice.Proofs.Lexing.Cutting
import Splice.Proofs.Literal.Encoding

/-!
# Written literals in any surroundings

A literal that writes a text stands on one line without control characters. The lexer takes it as
one token whatever follows it, even if that goes on as a literal would, and the text between its
delimiters decodes to what was written.

* `not_isControl_of_mem_quoteWith`: a written literal has no control characters.
* `IsToken`, `IsToken.of_first?`: the lexer takes a text as one token before any other text.
* `quote_safe`: all of this for strings, interpolated literals and characters.
-/

namespace Splice

/-- A control character, as far as ASCII goes. -/
def IsControl (c : CodePoint) : Prop := c.toNat < 0x20 ∨ c.toNat = 0x7f

instance (c : CodePoint) : Decidable (IsControl c) := inferInstanceAs (Decidable (_ ∨ _))

/-- The lexer that stands before `l` and any other text takes exactly `l`, as one token. -/
def IsToken (terminal : Terminal) (l : Text) : Prop :=
  ∀ s offset loc, Lexed.scan (l ++ s) 0 offset loc =
    (Lexed.scan s 0 (offset + l.length) (loc.advanceAll l)).cons ⟨terminal, l, offset, loc⟩

/-- What stands between the delimiters `q` in `l`, behind `mark`, decodes to `t`. -/
def Delimits (mark : Text) (q : CodePoint) (l t : Text) : Prop :=
  ∃ inner, l = mark ++ q :: (inner ++ [q]) ∧
    ∀ loc, ∃ body, Escape.decode inner loc = .ok body ∧ body.text = t

/-! ## Characters of a written literal -/

theorem not_isControl_of_hexValue? {c : CodePoint} (h : hexValue? c ≠ none) : ¬ IsControl c := by
  intro hcontrol
  unfold IsControl at hcontrol
  refine h ?_
  unfold hexValue?
  rw [if_neg (by omega), if_neg (by omega), if_neg (by omega)]

theorem not_isControl_hexDigits {n : Nat} (hn : n < 0x80) {c : CodePoint} (h : c ∈ hexDigits 2 n) :
    ¬ IsControl c := by
  obtain ⟨-, hnumber, -⟩ := hexDigits_two n hn
  exact not_isControl_of_hexValue? (Escape.hexValue?_of_hexNumber? hnumber c h)

theorem not_isControl_quoteChar {q c d : CodePoint} (hq : ¬ IsControl q)
    (h : d ∈ quoteChar [q] c) : ¬ IsControl d := by
  have hletter {x y : CodePoint} (hx : ¬ IsControl x) (hy : ¬ IsControl y) (h : d ∈ [x, y]) :
      ¬ IsControl d := by
    rw [List.mem_cons, List.mem_singleton] at h
    rcases h with rfl | rfl
    · exact hx
    · exact hy
  have hslash : ¬ IsControl '\\' := by decide
  unfold quoteChar at h
  by_cases hc : c = q
  · subst hc
    rw [if_pos rfl] at h
    exact hletter hslash hq h
  · rw [if_neg (by simp [hc])] at h
    split at h
    · exact hletter hslash hslash h
    · exact hletter hslash (by decide) h
    · exact hletter hslash (by decide) h
    · exact hletter hslash (by decide) h
    · exact hletter hslash (by decide) h
    next =>
      by_cases hcontrol : c.toNat < 0x20 ∨ c.toNat = 0x7f
      · rw [if_pos hcontrol] at h
        rcases List.mem_cons.1 h with rfl | h
        · exact hslash
        rcases List.mem_cons.1 h with rfl | h
        · decide
        · exact not_isControl_hexDigits (by omega) h
      · rw [if_neg hcontrol] at h
        obtain rfl : d = c := List.mem_singleton.1 h
        exact hcontrol

/-- A written literal has no control characters. -/
theorem not_isControl_of_mem_quoteWith {q d : CodePoint} {t : Text} (hq : ¬ IsControl q)
    (h : d ∈ quoteWith [q] t) : ¬ IsControl d := by
  simp only [quoteWith, List.mem_append, List.mem_singleton, List.mem_flatMap] at h
  rcases h with (rfl | ⟨c, -, h⟩) | rfl
  · exact hq
  · exact not_isControl_quoteChar hq h
  · exact hq

/-! ## One token -/

theorem IsToken.of_first? {terminal : Terminal} {l : Text}
    (h : ∀ s, Lexeme.first? (l ++ s) = some (.token terminal, l.length)) : IsToken terminal l := by
  intro s offset loc
  have hjoined : joined [⟨.token terminal, l⟩] = l := List.append_nil l
  rw [Lexed.scan_of_cuts (.single (h s)), hjoined]
  rfl

theorem delimits_quoteWith {q : CodePoint} (hq : q = '"' ∨ q = '\'') (mark t : Text) :
    Delimits mark q (mark ++ quoteWith [q] t) t := by
  refine ⟨t.flatMap (quoteChar [q]), ?_, fun loc => ?_⟩
  · rw [quoteWith, List.append_assoc]
    rfl
  · exact Escape.decode_flatMap (writes_quoteChar hq) t loc

/-- A text that is written as a literal has no control characters in it, is one token before any
other text, and is read back from between the delimiters. -/
theorem quote_safe (t : Text) :
    (∀ c ∈ quote t, ¬ IsControl c) ∧
    IsToken .stringLit (quote t) ∧ Delimits [] '"' (quote t) t ∧
    (∀ kind : InterpolationKind, IsToken .interpolatedLit (kind.letter :: quote t) ∧
      Delimits [kind.letter] '"' (kind.letter :: quote t) t) ∧
    ∀ c, t = [c] → IsToken .charLit (quoteCharacter t) ∧ Delimits [] '\'' (quoteCharacter t) t := by
  refine ⟨fun c hc => ?_, ?_, ?_, fun kind => ⟨?_, ?_⟩, ?_⟩
  · exact not_isControl_of_mem_quoteWith (by decide) hc
  · exact .of_first? (Lexeme.first?_quote t)
  · exact delimits_quoteWith (.inl rfl) [] t
  · exact .of_first? (Lexeme.first?_interpolated kind t)
  · exact delimits_quoteWith (.inl rfl) [kind.letter] t
  · rintro c rfl
    exact ⟨.of_first? (Lexeme.first?_quoteCharacter c), delimits_quoteWith (.inr rfl) [] [c]⟩

/-- A line feed in a string, and a quote as a character. -/
theorem quote_safe_lineFeed :
    ¬ IsControl '\\' ∧ IsToken .stringLit ['"', '\\', 'n', '"'] ∧
      IsToken .charLit ['\'', '"', '\''] := by
  obtain ⟨hcontrol, hstring, -⟩ := quote_safe ['\n']
  obtain ⟨-, -, -, -, hcharacter⟩ := quote_safe ['"']
  exact ⟨hcontrol '\\' (by decide), hstring, (hcharacter '"' rfl).1⟩

end Splice
