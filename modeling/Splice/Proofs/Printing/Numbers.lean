import Splice.Parse.Fragment
import Splice.Proofs.Printing.Constants

/-!
# Numbers are printed as numbers

* `IsNumeral`: a text is one token of a kind, and is parsed as the literal of a value.
* `isNumeral_iff`: for a number this is decided by the token alone.
* `IsNumeral.writeExpr_iff`: a number is printed as a number of the same kind and value, unless it
  has a fraction and is infinite or one digit with an exponent.
-/

namespace Splice

/-- A text is one token of some kind, and is parsed as the literal of a value. -/
structure IsNumeral (terminal : Terminal) (t : Text) (value : Constant) : Prop where
  token : ∃ token, Lexed.ofText t = ⟨[token], none⟩ ∧ token.terminal = terminal
  literal : ∃ loc, parseExpr t = .ok (.literal loc value)

/-! ## Numbers that are read -/

section Numerals

variable {terminal : Terminal} {read : Token → Decoded Constant} {t : Text} {value : Constant}

/-- A number is parsed as what its token stands for. -/
theorem isNumeral_iff (hp : ⟨.primary, [.terminal terminal],
      fun _ (token, ()) => Production.literal read token⟩ ∈ Production.all) :
    IsNumeral terminal t value ↔ ∃ token, Lexed.ofText t = ⟨[token], none⟩ ∧
      token.terminal = terminal ∧ read token = .ok value := by
  have hshape {token : Token} (ht : Lexed.ofText t = ⟨[token], none⟩)
      (hkind : token.terminal = terminal) :
      @readShape .expr t = .ok (Production.literal read token) := readShape_operand hp hkind ht
  constructor
  · rintro ⟨⟨token, ht, hkind⟩, loc, hparse⟩
    refine ⟨token, ht, hkind, ?_⟩
    rw [parseExpr, parse, hshape ht hkind] at hparse
    cases hread : read token with
    | error fault =>
      rw [Production.literal, hread] at hparse
      cases hparse
    | ok c =>
      rw [Production.literal, hread] at hparse
      cases hparse
      rfl
  · rintro ⟨token, ht, hkind, hread⟩
    refine ⟨⟨token, ht, hkind⟩, token.loc, ?_⟩
    rw [parseExpr, parse, hshape ht hkind, Production.literal, hread]
    rfl

end Numerals

/-! ## Printed numbers -/

/-- There is a point in each number with a fraction. -/
theorem Lexeme.point_mem_of_first? {t s : Text}
    (h : first? (t ++ s) = some (.token .floatLit, t.length)) : ↑ '.' ∈ t := by
  obtain ⟨whole, rest, fraction, -, hrest, -, hlength⟩ := decimal_eq_some_iff.1 (shape_of_first? h)
  have hpoint : (t ++ s)[whole]? = some ↑ '.' := by
    rw [← List.head?_drop, hrest]
    rfl
  rw [List.getElem?_append_left (by omega)] at hpoint
  exact List.mem_of_getElem? hpoint

namespace Constant

variable {token : Token} {value : Constant}

theorem exists_of_ofInteger (h : ofInteger token = .ok value) :
    ∃ n : Nat, value = .int n ∧ n < 10 ^ maxIntegerDigits := by
  have hread := isRead_ofInteger h
  unfold ofInteger at h
  split at h
  next => cases h
  next =>
    cases h
    obtain ⟨n, hn, hlt⟩ := hread
    exact ⟨n, congrArg int hn, hlt⟩

/-- An integer is printed as the integer. -/
theorem isNumeral_of_ofInteger (h : ofInteger token = .ok value) :
    IsNumeral .intLit value.text value := by
  obtain ⟨n, rfl, hn⟩ := exists_of_ofInteger h
  rw [text_int]
  have hfirst := Lexeme.first?_integer (s := []) (digitsOf_ne_nil n)
    (fun _ => isDigit_of_mem_digitsOf (n := n)) trivial
  exact (isNumeral_iff (Production.mem_operands (k := 8) rfl)).2
    ⟨_, Lexed.ofText_single hfirst, rfl, ofInteger_digitsOf hn rfl⟩

/-- A number with a fraction is printed as one, unless it is written without a point. -/
theorem isNumeral_iff_of_ofFraction (h : ofFraction token = .ok value) :
    IsNumeral .floatLit value.text value ↔ ∀ x, value = .float x → ¬x.IsPointless := by
  cases h
  generalize hx : Binary64.ofDecimal false _ _ = x
  constructor
  · rintro ⟨⟨token, htokens, hkind⟩, -⟩ _ ⟨⟩ hpointless
    have hmem : token ∈ (Lexed.ofText x.write).tokens := by
      rw [text] at htokens
      rw [htokens]
      exact List.mem_singleton_self token
    obtain ⟨before, rest, hwrite, -, -, hfirst⟩ := Lexed.standsIn_of_mem hmem
    rw [hkind] at hfirst
    refine hpointless.point_notMem ?_
    rw [hwrite]
    exact List.mem_append_right _ (List.mem_append_left _ (Lexeme.point_mem_of_first? hfirst))
  · intro hpoint
    have hpointed := Binary64.isPointed_write hx.symm (hpoint x rfl)
    exact (isNumeral_iff (Production.mem_operands (k := 9) rfl)).2
      ⟨_, Lexed.ofText_single (hpointed.first? trivial), rfl, ofFraction_of_isPointed hpointed rfl⟩

end Constant

/-- A number is printed as a number of the same kind and value, unless it has a fraction and is
infinite or one digit with an exponent. -/
theorem IsNumeral.writeExpr_iff {terminal : Terminal} {t : Text} {value : Constant}
    (h : IsNumeral terminal t value) (hterminal : terminal = .intLit ∨ terminal = .floatLit)
    (loc : Loc) : ∃ written, (Node.literal loc value).writeExpr = .ok written ∧
      (IsNumeral terminal written value ↔ ∀ x, value = .float x → ¬x.IsPointless) := by
  refine ⟨value.text, rfl, ?_⟩
  rcases hterminal with rfl | rfl
  · obtain ⟨token, -, -, hread⟩ := (isNumeral_iff (Production.mem_operands (k := 8) rfl)).1 h
    obtain ⟨n, rfl, -⟩ := Constant.exists_of_ofInteger hread
    exact iff_of_true (Constant.isNumeral_of_ofInteger hread) nofun
  · obtain ⟨token, -, -, hread⟩ := (isNumeral_iff (Production.mem_operands (k := 9) rfl)).1 h
    exact Constant.isNumeral_iff_of_ofFraction hread

/-- Digits of other scripts and an exponent. -/
theorem IsNumeral.writeExpr_iff_exponent :
    let t := (['٣', '.', '५', 'e', '2', '0'] : Text)
    let x := Binary64.ofDecimal false 35 19
    let written := (['3', '.', '5', 'e', '+', '2', '0'] : Text)
    IsNumeral .floatLit t (.float x) ∧
      (Terminal.floatLit = .intLit ∨ Terminal.floatLit = .floatLit) ∧ ¬x.IsPointless ∧
      (Node.literal .start (.float x)).writeExpr = .ok written ∧
      IsNumeral .floatLit written (.float x) := by
  intro t x written
  have htokens : Lexed.ofText t = ⟨[⟨.floatLit, t, 0, .start⟩], none⟩ := by decide +kernel
  have hnumeral : IsNumeral .floatLit t (.float x) :=
    (isNumeral_iff (Production.mem_operands (k := 9) rfl)).2 ⟨_, htokens, rfl, by decide +kernel⟩
  have hx : x.write = written := by decide +kernel
  have hpoint : ¬x.IsPointless := fun hpointless => hpointless.point_notMem (by rw [hx]; decide)
  obtain ⟨text, htext, hiff⟩ := hnumeral.writeExpr_iff (.inr rfl) .start
  obtain rfl : written = text := hx.symm.trans (Except.ok.inj htext)
  refine ⟨hnumeral, .inr rfl, hpoint, htext, hiff.2 ?_⟩
  rintro _ ⟨⟩
  exact hpoint

/-- The number `1.0e16` is printed as a row of four tokens, the first of which is an integer. -/
theorem IsNumeral.not_writeExpr :
    let t := (['1', '.', '0', 'e', '1', '6'] : Text)
    let x := Binary64.ofDecimal false 10 15
    let written := (['1', 'e', '+', '1', '6'] : Text)
    IsNumeral .floatLit t (.float x) ∧ (Node.literal .start (.float x)).writeExpr = .ok written ∧
      (Lexed.ofText written).tokens.map Token.terminal = [.intLit, .name, .mark .plus, .intLit] ∧
      ¬IsNumeral .floatLit written (.float x) := by
  intro t x written
  have htokens : Lexed.ofText t = ⟨[⟨.floatLit, t, 0, .start⟩], none⟩ := by decide +kernel
  have hnumeral : IsNumeral .floatLit t (.float x) :=
    (isNumeral_iff (Production.mem_operands (k := 9) rfl)).2 ⟨_, htokens, rfl, by decide +kernel⟩
  have hx : x.write = written := by decide +kernel
  have hkinds : (Lexed.ofText written).tokens.map Token.terminal =
      [.intLit, .name, .mark .plus, .intLit] := by decide +kernel
  refine ⟨hnumeral, congrArg Except.ok hx, hkinds, ?_⟩
  rintro ⟨⟨token, hone, -⟩, -⟩
  rw [hone] at hkinds
  simp at hkinds

end Splice
