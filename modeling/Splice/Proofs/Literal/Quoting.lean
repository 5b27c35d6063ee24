import Splice.Literal.Quote
import Splice.Proofs.Literal.Tokens

/-!
# Reading what was quoted

The literal that writes a text is one lexeme, and decoding gives the text back. `Writes q c w` says
that `w` writes the character `c` between the quotes `q`.

* `writes_quoteChar`: every character is written.
* `Escape.decode_flatMap`: decoding undoes writing.
* `Lexeme.first?_quote`, `Lexeme.first?_quoteCharacter`: a written literal is one lexeme.
-/

namespace Splice

/-- A text between the quotes `q` that writes one character: the character itself, or an escape
that names it. -/
inductive Writes (q c : CodePoint) : Text → Prop
  | plain (hquote : c ≠ q) (hslash : c ≠ '\\') (hline : c ≠ '\n') : Writes q c [c]
  | escape {x : CodePoint} {more : Text} (hline : x ≠ '\n')
    (hmore : ∀ y ∈ more, y ≠ '\\' ∧ y ≠ q)
    (hread : ∀ rest, Escape.read (x :: (more ++ rest)) = .ok (c, more.length + 2)) :
    Writes q c ('\\' :: x :: more)

section Writing

variable {q : CodePoint}

/-- The characters that are written by their codes. -/
theorem hexDigits_two : ∀ n < 0x80, (hexDigits 2 n).length = 2 ∧
    hexNumber? (hexDigits 2 n) = some n ∧ ↑ '\\' ∉ hexDigits 2 n ∧ ↑ '"' ∉ hexDigits 2 n ∧
      ↑ '\'' ∉ hexDigits 2 n := by
  decide +kernel

theorem Escape.read_hexDigits {n : Nat} (hn : n < 0x80) (rest : Text) :
    read ('x' :: (hexDigits 2 n ++ rest)) = .ok (CodePoint.ofNat n, 4) := by
  obtain ⟨hlength, hnumber, -⟩ := hexDigits_two n hn
  obtain ⟨high, low, hdigits⟩ : ∃ high low, hexDigits 2 n = [high, low] := by
    match hexDigits 2 n, hlength with
    | [high, low], _ => exact ⟨high, low, rfl⟩
  rw [hdigits] at hnumber ⊢
  simp [read, hnumber]

/-- Every character is written between quotes. -/
theorem writes_quoteChar (hq : q = '"' ∨ q = '\'') (c : CodePoint) :
    Writes q c (quoteChar [q] c) := by
  have hslash : '\\' ≠ q := by rcases hq with rfl | rfl <;> decide
  unfold quoteChar
  by_cases hc : c = q
  · subst hc
    rw [if_pos rfl]
    rcases hq with rfl | rfl
    · exact .escape (by decide) (by simp) fun rest => rfl
    · exact .escape (by decide) (by simp) fun rest => rfl
  rw [if_neg (by simp [hc])]
  split
  · exact .escape (by decide) (by simp) fun rest => rfl
  · exact .escape (by decide) (by simp) fun rest => rfl
  · exact .escape (by decide) (by simp) fun rest => rfl
  · exact .escape (by decide) (by simp) fun rest => rfl
  · exact .escape (by decide) (by simp) fun rest => rfl
  next hbackslash hline _ _ _ =>
    by_cases hcontrol : c.toNat < 0x20 ∨ c.toNat = 0x7f
    · rw [if_pos hcontrol]
      have hlt : c.toNat < 0x80 := by omega
      obtain ⟨hlength, -, hno, hnoQuote, hnoApostrophe⟩ := hexDigits_two _ hlt
      refine .escape (by decide) (fun y hy => ⟨?_, ?_⟩) fun rest => ?_
      · rintro rfl
        exact hno hy
      · rintro rfl
        rcases hq with rfl | rfl
        · exact hnoQuote hy
        · exact hnoApostrophe hy
      · rw [Escape.read_hexDigits hlt, hlength, CodePoint.ofNat_toNat]
    · rw [if_neg hcontrol]
      exact .plain hc hbackslash hline

/-! ## Decoding -/

namespace Escape

/-- Characters of an escape that was read before are passed over. -/
theorem decodeFrom_pending (l t : Text) (loc : Loc) :
    decodeFrom (l ++ t) l.length loc = decodeFrom t 0 (loc.advanceAll l) := by
  induction l generalizing loc with
  | nil => rfl
  | cons c l ih => exact ih (loc.advance c)

theorem decodeFrom_writes {c : CodePoint} {w : Text} (h : Writes q c w) (t : Text) (loc : Loc) :
    decodeFrom (w ++ t) 0 loc = (decodeFrom t 0 (loc.advanceAll w)).map (.cons c loc) := by
  cases h with
  | plain _ hslash => rw [List.singleton_append, decodeFrom, if_neg hslash]; rfl
  | @escape x more _ _ hread =>
    have hpending := decodeFrom_pending (x :: more) t (loc.advance '\\')
    rw [List.cons_append, List.cons_append, decodeFrom, if_pos rfl, hread]
    exact congrArg (Except.map (PlacedText.cons c loc)) hpending

/-- Decoding undoes writing. -/
theorem decode_flatMap {write : CodePoint → Text} (hwrite : ∀ c, Writes q c (write c)) (t : Text)
    (loc : Loc) : ∃ body, decode (t.flatMap write) loc = .ok body ∧ body.text = t := by
  unfold decode
  induction t generalizing loc with
  | nil => exact ⟨_, rfl, rfl⟩
  | cons c t ih =>
    obtain ⟨body, hbody, htext⟩ := ih (loc.advanceAll (write c))
    refine ⟨.cons c loc body, ?_, congrArg (c :: ·) htext⟩
    rw [List.flatMap_cons, decodeFrom_writes (hwrite c), hbody]
    rfl

end Escape

/-! ## Lexemes -/

namespace Quoted

variable {escaped : CodePoint → Bool}

theorem tail_plain {l : Text} (h : ∀ y ∈ l, y ≠ '\\' ∧ y ≠ q) (t : Text) :
    tail escaped q (l ++ t) = (tail escaped q t).map (· + l.length) := by
  induction l with
  | nil => simp
  | cons y l ih =>
    obtain ⟨⟨hslash, hquote⟩, hlater⟩ := List.forall_mem_cons.1 h
    rw [List.cons_append, tail_cons hslash, if_neg hquote, ih hlater, Option.map_map]
    simp [Function.comp_def, Nat.add_assoc]

theorem tail_writes (hescaped : ∀ x : CodePoint, x ≠ '\n' → escaped x = true) {c : CodePoint}
    {w : Text} (h : Writes q c w) (t : Text) :
    tail escaped q (w ++ t) = (tail escaped q t).map (· + w.length) := by
  cases h with
  | plain hquote hslash =>
    refine tail_plain (fun y hy => ?_) t
    rw [List.mem_singleton.1 hy]
    exact ⟨hslash, hquote⟩
  | @escape x more hline hmore =>
    rw [List.cons_append, List.cons_append, tail, if_pos (hescaped x hline), tail_plain hmore,
      Option.map_map]
    simp [Function.comp_def, Nat.add_assoc]

/-- What is written between quotes ends at the second one. -/
theorem tail_flatMap (hescaped : ∀ x : CodePoint, x ≠ '\n' → escaped x = true) (hq : q ≠ '\\')
    {write : CodePoint → Text} (hwrite : ∀ c, Writes q c (write c)) (t s : Text) :
    tail escaped q (t.flatMap write ++ q :: s) = some ((t.flatMap write).length + 1) := by
  induction t with
  | nil => rw [List.flatMap_nil, List.nil_append, tail_cons hq, if_pos rfl]; rfl
  | cons c t ih =>
    rw [List.flatMap_cons, List.append_assoc, tail_writes hescaped (hwrite c), ih]
    simp [Nat.add_comm, Nat.add_left_comm]

end Quoted

end Writing

namespace Lexeme

theorem isEscapable_of_ne {x : CodePoint} (h : x ≠ '\n') : isEscapable x = true := decide_eq_true h

theorem first?_of_string {t : Text} {n : Nat} (h : string t = some n) :
    first? t = some (.token .stringLit, n) := by
  cases t with
  | nil => cases h
  | cons c rest =>
    obtain rfl : c = '"' := by
      unfold string at h
      split at h
      next heq => exact (List.cons.inj heq).1
      next => cases h
    have hinteger : integer ('"' :: rest) = none := rfl
    have hname : isNameStart '"' = false := by decide
    simp [first?, shapes, interpolated, character, decimal, hinteger, name, hname, blockComment,
      h, reclassify]

theorem string_quote (t s : Text) : string (quote t ++ s) = some (quote t).length := by
  have htail := Quoted.tail_flatMap (q := '"') (fun _ => isEscapable_of_ne) (by decide)
    (writes_quoteChar (.inl rfl)) t s
  have hquote : quote t = ↑ '"' :: (t.flatMap (quoteChar ['"']) ++ (['"'] : Text)) := rfl
  rw [hquote, List.cons_append, List.append_assoc, List.singleton_append, string, htail]
  simp [Nat.add_comm]

/-- A written string is one lexeme. -/
theorem first?_quote (t s : Text) :
    first? (quote t ++ s) = some (.token .stringLit, (quote t).length) :=
  first?_of_string (string_quote t s)

theorem first?_of_interpolated {t : Text} {n : Nat} (h : interpolated t = some n) :
    first? t = some (.token .interpolatedLit, n) := by
  simp [first?, shapes, h, reclassify]

/-- So is a written interpolated literal. -/
theorem first?_interpolated (kind : InterpolationKind) (t s : Text) :
    first? (kind.letter :: quote t ++ s) =
      some (.token .interpolatedLit, (kind.letter :: quote t).length) := by
  have hletter : kind.letter = 'i' ∨ kind.letter = 'f' := by cases kind <;> decide
  refine first?_of_interpolated ?_
  rw [List.cons_append, interpolated, if_pos hletter, string_quote]
  simp [Nat.add_comm]

theorem first?_of_character {t : Text} {n : Nat} (h : character t = some n) :
    first? t = some (.token .charLit, n) := by
  have hinterpolated : interpolated t = none := by
    unfold character at h
    split at h
    next => cases h
    next => rfl
    next => cases h
  simp [first?, shapes, h, hinterpolated, reclassify]

/-- So is a written character. -/
theorem first?_quoteCharacter (c : CodePoint) (s : Text) :
    first? (quoteCharacter [c] ++ s) = some (.token .charLit, (quoteCharacter [c]).length) := by
  have hwrites := writes_quoteChar (.inr rfl) c
  have htail := Quoted.tail_flatMap (q := '\'') (fun _ => isEscapable_of_ne) (by decide)
    (writes_quoteChar (.inr rfl)) [c] s
  have hquote : quoteCharacter [c] = ↑ '\'' :: (quoteChar ['\''] c ++ (['\''] : Text)) := by
    simp [quoteCharacter, quoteWith]
  refine first?_of_character ?_
  rw [List.flatMap_singleton] at htail
  rw [hquote, List.cons_append, List.append_assoc, List.singleton_append]
  generalize quoteChar ['\''] c = w at hwrites htail
  -- The first character behind the quote is no quote.
  have hcharacter : character ('\'' :: (w ++ ↑ '\'' :: s)) =
      (Quoted.tail isEscapable '\'' (w ++ ↑ '\'' :: s)).map (1 + ·) := by
    cases hwrites with
    | plain hc =>
      rw [character]
      simpa using hc
    | escape =>
      rw [character]
      simp
  rw [hcharacter, htail]
  simp [Nat.add_comm]

end Lexeme

end Splice
