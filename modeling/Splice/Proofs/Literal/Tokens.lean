import Mathlib.Algebra.Group.Nat.Defs
import Splice.Literal.Value
import Splice.Proofs.Decimal.Digits
import Splice.Proofs.Failing
import Splice.Proofs.Lexing.Local

/-!
# What tokens stand for

The texts of names, and the values of literals, as far as later proofs need to know them.

* `isName_of_first?`: the text of a name.
* `Constant.IsRead`: the values that the literals of a source have.
* `Lexeme.interpolated_of_first?`, `Interpolation.ofToken_eq_ok`: the text and the value of an
  interpolated literal.
* `Lexeme.quoted_of_first?`: the text of any literal with escapes.
-/

namespace Splice

/-! ## Names -/

/-- A name of the host language, which is no reserved word. -/
structure IsName (t : Text) : Prop where
  start : ∃ c rest, t = c :: rest ∧ isNameStart c = true
  parts : ∀ c ∈ t, isNamePart c = true
  notReserved : Keyword.ofText? t = none

theorem Lexeme.name_of_first? {t : Text} {n : Nat} (h : first? t = some (.token .name, n)) :
    name t = some n ∧ Keyword.ofText? (t.take n) = none := by
  have hfound := found_of_first? h
  generalize hkind : Class.token .name = kind at hfound
  cases hfound with
  | name h =>
    refine ⟨h, ?_⟩
    rw [reclassify] at hkind
    cases hword : Keyword.ofText? (t.take n) with
    | none => rfl
    | some k => rw [hword] at hkind; cases hkind
  | _ => cases hkind

theorem isName_of_first? {l s : Text}
    (h : Lexeme.first? (l ++ s) = some (.token .name, l.length)) : IsName l := by
  obtain ⟨hn, hword⟩ := Lexeme.name_of_first? h
  have hparts := @Lexeme.isNamePart_of_mem_take _ _ hn
  rw [List.take_left] at hword hparts
  refine ⟨?_, @hparts, hword⟩
  cases l with
  | nil => exact absurd (Lexeme.first?_proper h).1 (Nat.lt_irrefl 0)
  | cons c rest =>
    simp only [List.cons_append, Lexeme.name, Option.ite_none_right_eq_some] at hn
    exact ⟨c, rest, rfl, hn.1⟩

/-! ## Constants -/

/-- The values that the literals of a source have. -/
def Constant.IsRead : Constant → Prop
  | int n => ∃ k : Nat, n = k ∧ k < 10 ^ maxIntegerDigits
  | float x => ∃ digits exponent, x = .ofDecimal false digits exponent
  | char t => ∃ c, t = [c]
  | string _ | bool _ | null => True

section Constants

variable {token : Token}

theorem Constant.isRead_ofInteger {c : Constant} (h : ofInteger token = .ok c) : c.IsRead := by
  unfold ofInteger at h
  split at h
  next => cases h
  next hle =>
    cases h
    refine ⟨_, rfl, Nat.lt_of_lt_of_le (decimalValue_lt _) ?_⟩
    exact Nat.pow_le_pow_right (by omega) (Nat.le_of_not_lt hle)

theorem Constant.isRead_ofFraction {c : Constant} (h : ofFraction token = .ok c) : c.IsRead := by
  cases h
  exact ⟨_, _, rfl⟩

theorem Constant.isRead_ofString {c : Constant} (h : ofString token = .ok c) : c.IsRead := by
  obtain ⟨body, -, h⟩ := bind_eq_ok.1 h
  cases h
  trivial

theorem Constant.isRead_ofCharacter {c : Constant} (h : ofCharacter token = .ok c) :
    c.IsRead := by
  obtain ⟨body, -, h⟩ := bind_eq_ok.1 h
  split at h
  next c _ =>
    cases h
    exact ⟨c, rfl⟩
  next => cases h

end Constants

/-! ## Literals between quotes -/

/-- What an interpolated literal looks like: a letter, and a text between quotes. -/
theorem Lexeme.interpolated_of_first? {l s : Text}
    (h : first? (l ++ s) = some (.token .interpolatedLit, l.length)) :
    ∃ (c : CodePoint) (inner : Text), l = c :: ↑ '"' :: inner ∧ (c = 'i' ∨ c = 'f') ∧
      Quoted.tail isEscapable '"' (inner ++ s) = some inner.length := by
  have hshape := shape_of_first? h
  rw [shapeOf, interpolated_eq, string_eq] at hshape
  obtain ⟨c, l, rfl, hc, hstring⟩ := Shape.behind_append hshape
  obtain ⟨quote, inner, rfl, hquote, htail⟩ := Shape.behind_append hstring
  obtain rfl : quote = '"' := of_decide_eq_true hquote
  exact ⟨c, inner, rfl, of_decide_eq_true hc, htail⟩

/-- The kinds of literals with escapes: the quote between which they stand, and how many characters
they begin with, the quote being the last of these. -/
inductive Terminal.Quotes : Terminal → CodePoint → Nat → Prop
  | string : Quotes .stringLit '"' 1
  | character : Quotes .charLit '\'' 1
  | interpolated : Quotes .interpolatedLit '"' 2

/-- What a literal with escapes looks like. -/
theorem Lexeme.quoted_of_first? {terminal : Terminal} {quote : CodePoint} {width : Nat}
    (hquotes : terminal.Quotes quote width) {l s : Text}
    (h : first? (l ++ s) = some (.token terminal, l.length)) :
    ∃ opening inner, l = opening ++ quote :: inner ∧ opening.length + 1 = width ∧
      ↑ '\n' ∉ opening ∧ quote ≠ '\n' ∧
      Quoted.tail isEscapable quote (inner ++ s) = some inner.length := by
  have hshape := shape_of_first? h
  cases hquotes with
  | string =>
    rw [shapeOf, string_eq] at hshape
    obtain ⟨c, inner, rfl, hc, htail⟩ := Shape.behind_append hshape
    obtain rfl : c = '"' := of_decide_eq_true hc
    exact ⟨[], inner, rfl, rfl, nofun, by decide, htail⟩
  | character =>
    rw [shapeOf, character_eq] at hshape
    obtain ⟨c, inner, rfl, hc, hend⟩ := Shape.behind_append hshape
    obtain rfl : c = '\'' := of_decide_eq_true hc
    obtain ⟨-, htail⟩ := Option.ite_none_left_eq_some.1 hend
    exact ⟨[], inner, rfl, rfl, nofun, by decide, htail⟩
  | interpolated =>
    obtain ⟨c, inner, rfl, hc, htail⟩ := interpolated_of_first? h
    refine ⟨[c], inner, rfl, rfl, ?_, by decide, htail⟩
    rcases hc with rfl | rfl <;> decide

theorem Token.decoded_eq_ok {token : Token} {width : Nat} {body : PlacedText} :
    token.decoded width = .ok body ↔
      Escape.decode (token.inner width) (token.loc.right width) = .ok body := by
  unfold decoded
  cases Escape.decode (token.inner width) (token.loc.right width) <;> simp

theorem Interpolation.ofToken_eq_ok {token : Token} {i : Interpolation} :
    ofToken token = .ok i ↔ i.loc = token.loc ∧ i.kind = kindOf token.text ∧
      Escape.decode (token.inner 2) (token.loc.right 2) = .ok i.body := by
  unfold ofToken
  rw [bind_eq_ok]
  constructor
  · rintro ⟨body, hbody, h⟩
    cases h
    exact ⟨rfl, rfl, Token.decoded_eq_ok.1 hbody⟩
  · rintro ⟨hloc, hkind, hbody⟩
    refine ⟨i.body, Token.decoded_eq_ok.2 hbody, ?_⟩
    rw [← hloc, ← hkind]
    rfl

end Splice
