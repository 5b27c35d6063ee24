import Mathlib.Data.List.TakeWhile
import Splice.Proofs.Decimal.Written
import Splice.Proofs.Literal.Quoting
import Splice.Proofs.Printing.Operators

/-!
# Literals

* `Nonterminal.reads_literal`: the literal of a value is read as the value.
* `Nonterminal.reads_interpolation`: so is an interpolated literal, up to the places of its
  characters.
* `starts_constant`: no literal begins with a blank.
-/

namespace Splice

/-- Placed texts with the same characters are equal when all places are. -/
theorem PlacedText.map_const_eq {p p' : PlacedText} (h : p.text = p'.text) (loc : Loc) :
    p.map (fun _ => loc) = p'.map fun _ => loc := by
  have hchars (p : PlacedText) :
      (p.map fun _ => loc).chars = p.text.map fun c => (c, loc) := by
    simp [map, text, Function.comp_def]
  have hstop (p : PlacedText) : (p.map fun _ => loc).stop = loc := rfl
  have : (p.map fun _ => loc).chars = (p'.map fun _ => loc).chars := by
    rw [hchars, hchars, h]
  exact congrArg (PlacedText.mk · loc) this

/-! ## Values of written literals -/

section Values

variable {token : Token}

theorem Token.inner_quoteWith {q : CodePoint} {t w : Text} (h : token.text = w ++ quoteWith [q] t) :
    token.inner (w.length + 1) = t.flatMap (quoteChar [q]) := by
  rw [inner, h, quoteWith, List.append_assoc, ← List.append_assoc]
  have hlength : w.length + 1 = (w ++ [q]).length := by simp
  rw [hlength, List.drop_left, List.dropLast_concat]

theorem Constant.ofString_quote {t : Text} (h : token.text = quote t) :
    ofString token = .ok (.string t) := by
  obtain ⟨body, hbody, htext⟩ :=
    Escape.decode_flatMap (writes_quoteChar (.inl rfl)) t (token.loc.right 1)
  rw [← Token.inner_quoteWith (w := []) h] at hbody
  refine bind_eq_ok.2 ⟨body, Token.decoded_eq_ok.2 hbody, ?_⟩
  rw [htext]
  rfl

theorem Constant.ofCharacter_quote {c : CodePoint} (h : token.text = quoteCharacter [c]) :
    ofCharacter token = .ok (.char [c]) := by
  obtain ⟨body, hbody, htext⟩ :=
    Escape.decode_flatMap (writes_quoteChar (.inr rfl)) [c] (token.loc.right 1)
  rw [← Token.inner_quoteWith (w := []) h] at hbody
  refine bind_eq_ok.2 ⟨body, Token.decoded_eq_ok.2 hbody, ?_⟩
  rw [htext]
  rfl

theorem Interpolation.ofToken_quote {kind : InterpolationKind} {t : Text}
    (h : token.text = kind.letter :: quote t) :
    ∃ i, ofToken token = .ok i ∧ i.kind = kind ∧ i.body.text = t := by
  obtain ⟨body, hbody, htext⟩ :=
    Escape.decode_flatMap (writes_quoteChar (.inl rfl)) t (token.loc.right 2)
  rw [← Token.inner_quoteWith (w := [kind.letter]) h] at hbody
  refine ⟨⟨token.loc, kindOf token.text, body⟩, ofToken_eq_ok.2 ⟨rfl, rfl, hbody⟩, ?_, htext⟩
  rw [h]
  cases kind <;> rfl

theorem Constant.ofInteger_digitsOf {n : Nat} (hn : n < 10 ^ maxIntegerDigits)
    (h : token.text = digitsOf n) : ofInteger token = .ok (.int n) := by
  have hlength : token.text.length ≤ maxIntegerDigits := by
    rw [h, length_digitsOf]
    exact (Nat.length_toDigits_le_iff (by decide) (by decide)).2 hn
  rw [ofInteger, if_neg (Nat.not_lt.2 hlength), h, decimalValue_digitsOf]

theorem Constant.exponentValue_of_isExponent {t : Text} {power : Int} (h : IsExponent t power) :
    exponentValue t = power := by
  cases h <;> rfl

/-- A row of digits is what is taken off a text that goes on with no digit. -/
theorem takeWhile_dropWhile_digits {l s : Text} (hl : ∀ c ∈ l, c.isDigit = true)
    (hs : ∀ c ∈ s.head?, isDecimal c = false) :
    (l ++ s).takeWhile isDecimal = l ∧ (l ++ s).dropWhile isDecimal = s := by
  have hdecimal : ∀ c ∈ l, isDecimal c = true := fun c hc => isDecimal_of_isDigit (hl c hc)
  rw [List.takeWhile_append_of_pos hdecimal, List.dropWhile_append_of_pos hdecimal]
  cases s with
  | nil => simp
  | cons c s =>
    have hc := hs c rfl
    simp [hc]

/-- A text with a point is read as the value for which it stands. -/
theorem Constant.ofFraction_of_isPointed {t : Text} {x : Binary64} (h : x.IsPointed t)
    (htext : token.text = t) : ofFraction token = .ok (.float x) := by
  cases h with
  | @intro whole fraction exponent power _ _ _ hdigits hexponent hvalue =>
    obtain ⟨hwhole, hfraction⟩ := List.forall_mem_append.1 hdigits
    have hletter : ∀ c ∈ exponent.head?, isDecimal c = false := by
      simpa using hexponent.head?_append (s := []) nofun
    have hpoint : isDecimal '.' = false := by decide
    obtain ⟨htake, hdrop⟩ := takeWhile_dropWhile_digits (s := '.' :: (fraction ++ exponent)) hwhole
      (by simpa using hpoint)
    obtain ⟨htake', hdrop'⟩ := takeWhile_dropWhile_digits hfraction hletter
    rw [ofFraction, htext, List.append_assoc, List.cons_append]
    simp only [htake, hdrop, List.drop_one, List.tail_cons, htake', hdrop',
      exponentValue_of_isExponent hexponent, hvalue]

end Values

/-- A text with a point is one lexeme. -/
theorem Binary64.IsPointed.first? {x : Binary64} {t s : Text} (h : x.IsPointed t) (hs : Ends s) :
    Lexeme.first? (t ++ s) = some (.token .floatLit, t.length) := by
  cases h with
  | intro hwhole hfraction hdigits hexponent =>
    exact Lexeme.first?_decimal hwhole hfraction hdigits hexponent hs

theorem Decoded.Gives.literal {value : Token → Decoded Constant} {token : Token}
    {constant : Constant} {loc : Loc} (h : value token = .ok constant) :
    Gives (Production.literal value token) (.literal loc constant) :=
  ⟨.literal token.loc constant, bind_eq_ok.2 ⟨constant, h, rfl⟩, rfl⟩

theorem Constant.text_int (n : Nat) : (int n).text = digitsOf n :=
  congrArg Text.ofChars Nat.toList_repr

namespace Nonterminal

section Literals

variable {t s : Text} {loc : Loc}

/-- The literal of a value is read as the value. -/
theorem reads_literal {value : Constant} (hread : value.IsRead)
    (hfloat : ∀ x, value = .float x → ¬x.IsPointless) (hs : Ends s) :
    suffixed.Reads (.literal loc value) value.text s := by
  refine Reads.toSuffixed ?_
  cases value with
  | int n =>
    obtain ⟨n, rfl, hn⟩ := hread
    rw [Constant.text_int]
    have hfirst := Lexeme.first?_integer (digitsOf_ne_nil n)
      (fun _ => isDigit_of_mem_digitsOf (n := n)) hs
    exact reads_node (Production.mem_operands (k := 8) rfl) (.token hfirst)
      fun _ _ hv => .literal (Constant.ofInteger_digitsOf hn hv)
  | float x =>
    obtain ⟨digits, exponent, hx⟩ := hread
    have hpointed := Binary64.isPointed_write hx (hfloat x rfl)
    exact reads_node (Production.mem_operands (k := 9) rfl) (.token (hpointed.first? hs))
      fun _ _ hv => .literal (Constant.ofFraction_of_isPointed hpointed hv)
  | string t =>
    exact reads_node (Production.mem_operands (k := 10) rfl) (.token (Lexeme.first?_quote t s))
      fun _ _ hv => .literal (Constant.ofString_quote hv)
  | char t =>
    obtain ⟨c, rfl⟩ := hread
    exact reads_node (Production.mem_operands (k := 12) rfl)
      (.token (Lexeme.first?_quoteCharacter c s))
      fun _ _ hv => .literal (Constant.ofCharacter_quote hv)
  | bool b =>
    cases b with
    | false =>
      exact reads_node (Production.mem_operands (k := 15) rfl)
        (.token (Lexeme.first?_keyword .falseWord hs)) fun _ _ _ => .pure rfl
    | true =>
      exact reads_node (Production.mem_operands (k := 14) rfl)
        (.token (Lexeme.first?_keyword .trueWord hs)) fun _ _ _ => .pure rfl
  | null =>
    exact reads_node (Production.mem_operands (k := 16) rfl)
      (.token (Lexeme.first?_keyword .nullWord hs)) fun _ _ _ => .pure rfl

/-- An interpolated literal is read as its body, up to the places of its characters. -/
theorem reads_interpolation (i : Interpolation) (s : Text) :
    suffixed.Reads (.interpolation i) i.text s := by
  refine Reads.toSuffixed ?_
  refine reads_node (Production.mem_operands (k := 13) rfl)
    (.token (Lexeme.first?_interpolated i.kind i.body.text s)) fun _ _ hv => ?_
  obtain ⟨i', hi', hkind, htext⟩ := Interpolation.ofToken_quote hv
  refine ⟨.interpolation i', ?_, ?_⟩
  · exact congrArg (Except.map Node.interpolation) hi'
  · simp only [Node.bare, Node.mapLoc, Interpolation.mapLoc, hkind,
      PlacedText.map_const_eq htext]

/-- A name is read as a name. -/
theorem reads_name {ident : Text} (hident : IsName ident) (hs : Ends s) :
    suffixed.Reads (.name loc ident) ident s := by
  refine Reads.toSuffixed ?_
  refine reads_node (Production.mem_operands (k := 7) rfl)
    (.token (Lexeme.first?_name hident hs)) fun _ v hv => .pure ?_
  exact congrArg (Node.name .start) hv

end Literals

end Nonterminal

/-! ## How literals begin -/

theorem starts_of_class {p : CodePoint → Bool}
    (hp : ([' ', '\t', '\x0c', '\r', '\n', '=', '/', '*'] : Text).any p = false)
    {c : CodePoint} (h : p c = true) (t : Text) : Starts (c :: t) := by
  have hne : ∀ x ∈ ([' ', '\t', '\x0c', '\r', '\n', '=', '/', '*'] : Text), c ≠ x := by
    rintro x hx rfl
    exact List.any_eq_false.1 hp c hx h
  simp only [List.forall_mem_cons] at hne
  obtain ⟨hspace, htab, hfeed, hreturn, hline, hequal, hslash, hstar, -⟩ := hne
  refine ⟨c, t, rfl, ?_, hequal, hslash, hstar⟩
  simp [Lexeme.isSpace, hspace, htab, hfeed, hreturn, hline]

theorem starts_of_isDigit {c : CodePoint} (h : c.isDigit = true) (t : Text) : Starts (c :: t) :=
  starts_of_class (by decide) h t

theorem starts_of_isNameStart {c : CodePoint} (h : isNameStart c = true) (t : Text) :
    Starts (c :: t) := starts_of_class (by decide) h t

theorem IsName.starts {t : Text} (h : IsName t) : Starts t := by
  obtain ⟨c, rest, rfl, hc⟩ := h.start
  exact starts_of_isNameStart hc rest

theorem Keyword.starts (k : Keyword) : Starts k.word := by
  have hall : ∀ k ∈ Keyword.all, k.word.head?.any isNameStart = true := by decide
  obtain ⟨c, hc, hstart⟩ := (Option.any_eq_true _ _).1 (hall k (Lexeme.mem_keywords k))
  obtain ⟨rest, hrest⟩ := List.head?_eq_some_iff.1 hc
  rw [hrest]
  exact starts_of_isNameStart hstart rest

theorem Binary64.IsPointed.starts {x : Binary64} {t : Text} (h : x.IsPointed t) : Starts t := by
  cases h with
  | intro hwhole _ hdigits =>
    obtain ⟨c, rest, rfl⟩ := List.exists_cons_of_ne_nil hwhole
    exact starts_of_isDigit (hdigits c (List.mem_cons_self ..)) _

/-- No literal begins with a blank. -/
theorem starts_constant {value : Constant} (hread : value.IsRead)
    (hfloat : ∀ x, value = .float x → ¬x.IsPointless) : Starts value.text := by
  cases value with
  | int n =>
    obtain ⟨n, rfl, -⟩ := hread
    rw [Constant.text_int]
    obtain ⟨c, rest, hdigits⟩ := List.exists_cons_of_ne_nil (digitsOf_ne_nil n)
    rw [hdigits]
    exact starts_of_isDigit (isDigit_of_mem_digitsOf (hdigits ▸ List.mem_cons_self ..)) rest
  | float x =>
    obtain ⟨digits, exponent, hx⟩ := hread
    exact (Binary64.isPointed_write hx (hfloat x rfl)).starts
  | string t => exact ⟨'"', _, rfl, by decide⟩
  | char t => exact ⟨'\'', _, rfl, by decide⟩
  | bool b =>
    cases b with
    | false => exact Keyword.starts .falseWord
    | true => exact Keyword.starts .trueWord
  | null => exact Keyword.starts .nullWord

end Splice
