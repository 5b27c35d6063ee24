import Splice.Proofs.Decimal.Digits
import Splice.Proofs.Literal.Tokens

/-!
# Texts that are one lexeme

What has to stand behind a spelling for the lexer to take all of it and nothing more.

* `Lexeme.first?_mark`: operators and brackets.
* `Lexeme.first?_name`, `Lexeme.first?_keyword`: words.
* `Lexeme.first?_integer`, `Lexeme.first?_decimal`: numbers.
* `Ends`: what may stand behind words and numbers.
-/

namespace Splice

/-- A text that goes on with no part of a name or a number before it, and with no quote. -/
def Ends : Text → Prop
  | [] => True
  | c :: rest => isNamePart c = false ∧ isDecimal c = false ∧ c ≠ '"' ∧
    (c = '.' → ∀ d ∈ rest.head?, isDecimal d = false)

theorem toNat_lt_of_isAlpha {c : CodePoint} (h : c.isAlpha = true) : c.toNat < 128 := by
  cases c with
  | scalar c =>
    have h : (decide ('A'.val ≤ c.val ∧ c.val ≤ 'Z'.val) ||
        (decide ('a'.val ≤ c.val) && decide (c.val ≤ 'z'.val))) = true := h
    simp only [Bool.or_eq_true, Bool.and_eq_true, decide_eq_true_eq,
      UInt32.le_iff_toNat_le] at h
    rcases h with ⟨-, h⟩ | ⟨-, h⟩ <;> exact Nat.lt_of_le_of_lt h (by decide)
  | surrogate => cases h

theorem isDecimal_of_isNameStart {c : CodePoint} (h : isNameStart c = true) :
    isDecimal c = false := by
  have hall : ∀ n < 128, isNameStart (.ofNat n) = true → isDecimal (.ofNat n) = false := by
    decide +kernel
  have hascii : c.toNat < 128 := by
    rcases Bool.or_eq_true_iff.1 h with h | h
    · exact toNat_lt_of_isAlpha h
    · rw [of_decide_eq_true h]
      decide
  have := hall c.toNat hascii
  rw [CodePoint.ofNat_toNat] at this
  exact this h

namespace Ends

variable {s : Text}

theorem isNamePart (h : Ends s) : ∀ c ∈ s.head?, Splice.isNamePart c = false := by
  cases s with
  | nil => nofun
  | cons c rest =>
    rintro _ ⟨⟩
    exact h.1

theorem isDecimal (h : Ends s) : ∀ c ∈ s.head?, Splice.isDecimal c = false := by
  cases s with
  | nil => nofun
  | cons c rest =>
    rintro _ ⟨⟩
    exact h.2.1

theorem of_mem {c : CodePoint} (h : c ∈ ([' ', ')', ',', ']', '(', '[', '!', '*', ';'] : Text))
    (s : Text) : Ends (c :: s) := by
  have hall : ∀ c ∈ ([' ', ')', ',', ']', '(', '[', '!', '*', ';'] : Text),
      Splice.isNamePart c = false ∧ Splice.isDecimal c = false ∧ c ≠ '"' ∧ c ≠ '.' := by
    simp only [List.forall_mem_cons, List.not_mem_nil, false_implies, implies_true, and_true]
    decide
  obtain ⟨hname, hdecimal, hquote, hdot⟩ := hall c h
  exact ⟨hname, hdecimal, hquote, fun heq => absurd heq hdot⟩

/-- A member access ends what stands before it. -/
theorem dot {ident : Text} (h : IsName ident) (s : Text) : Ends ('.' :: (ident ++ s)) := by
  obtain ⟨c, rest, rfl, hc⟩ := h.start
  refine ⟨by decide, by decide, by decide, fun _ d hd => ?_⟩
  cases hd
  exact isDecimal_of_isNameStart hc

end Ends

namespace Lexeme

/-! ## Marks -/

/-- Marks with which a longer mark or a comment begins. -/
def mayGrow : Mark → Bool
  | .bang | .equal | .gt | .lt | .slash => true
  | _ => false

/-- A mark is a lexeme, unless it grows. -/
theorem first?_mark {m : Mark} {s : Text}
    (h : mayGrow m = true → ∀ c ∈ s.head?, c ≠ '=' ∧ c ≠ '/' ∧ c ≠ '*') :
    first? (m.text ++ s) = some (.token (.mark m), m.text.length) := by
  by_cases hm : mayGrow m = true
  · have h := h hm
    cases s with
    | nil => cases m <;> rfl
    | cons c rest =>
      obtain ⟨hequal, hslash, hstar⟩ := h c rfl
      have hinterpolated (a : CodePoint) (ha : a ≠ 'i' ∧ a ≠ 'f') :
          interpolated (a :: c :: rest) = none := by simp [interpolated, ha]
      cases m <;> cases hm
      all_goals
        simp [first?, shapes, Mark.text, Mark.all, hinterpolated, character, decimal, integer,
          lengthWhile, name, isNameStart, blockComment, lineComment, string, blanks, rawString,
          spelled, List.isPrefixOf, reclassify, isDecimal, isSpace, hequal.symm, hslash, hstar,
          show digitValue? '!' = none from rfl, show digitValue? '=' = none from rfl,
          show digitValue? '>' = none from rfl, show digitValue? '<' = none from rfl,
          show digitValue? '/' = none from rfl]
  · cases m <;> first | rfl | exact absurd rfl hm

/-- Blanks that stand side by side are one lexeme. -/
theorem first?_of_isSpace {b : CodePoint} (h : isSpace b = true) (s : Text) :
    first? (b :: s) = some (.trivia, lengthWhile isSpace s + 1) := by
  have hblanks : blanks (b :: s) = some (lengthWhile isSpace s + 1) := by
    rw [blanks, lengthWhile, List.takeWhile_cons, if_pos h]
    rfl
  have hspaces : b = ' ' ∨ b = '\t' ∨ b = '\x0c' ∨ b = '\r' ∨ b = '\n' := by
    simpa [isSpace] using h
  have hinteger : integer (b :: s) = none := by
    rcases hspaces with rfl | rfl | rfl | rfl | rfl <;> rfl
  have hname : isNameStart b = false := by
    rcases hspaces with rfl | rfl | rfl | rfl | rfl <;> decide
  rcases hspaces with rfl | rfl | rfl | rfl | rfl <;>
    simp [first?, shapes, interpolated, character, decimal, hinteger, name, hname, blockComment,
      string, hblanks, reclassify]

/-- A blank is a lexeme, if there is only one. -/
theorem first?_blank {s : Text} (h : ∀ c ∈ s.head?, isSpace c = false) :
    first? (' ' :: s) = some (.trivia, 1) := by
  have hone : lengthWhile isSpace s = 0 := lengthWhile_append (l := []) nofun h
  rw [first?_of_isSpace rfl, hone]

/-! ## Words -/

/-- A row of letters, digits and underscores that begins with no digit is a lexeme. -/
theorem first?_word {c : CodePoint} {l s : Text} (hstart : isNameStart c = true)
    (hparts : ∀ x ∈ l, isNamePart x = true) (hs : Ends s) :
    first? (c :: l ++ s) = some (reclassify (c :: l) (.token .name), (c :: l).length) := by
  have hinterpolated : interpolated (c :: l ++ s) = none := by
    have hquote : string (l ++ s) = none := by
      unfold string
      split
      next rest heq =>
        cases l with
        | nil =>
          rw [List.nil_append] at heq
          rw [heq] at hs
          exact absurd rfl hs.2.2.1
        | cons x l =>
          cases heq
          exact absurd (hparts _ (List.mem_cons_self ..)) (by decide)
      next => rfl
    rw [List.cons_append, interpolated, hquote, Option.map_none, ite_self]
  have hcharacter : character (c :: l ++ s) = none := by
    unfold character
    split
    next => rfl
    next rest _ heq =>
      cases heq
      exact absurd hstart (by decide)
    next => rfl
  have hdecimal : decimal (c :: l ++ s) = none := by
    simp [decimal, integer, lengthWhile, isDecimal_of_isNameStart hstart]
  have hname : name (c :: l ++ s) = some (c :: l).length := by
    rw [List.cons_append, name, if_pos hstart, lengthWhile_append hparts hs.isNamePart]
    simp [Nat.add_comm]
  have htake : (c :: l ++ s).take (c :: l).length = c :: l := List.take_left
  simp only [first?, shapes, List.cons_append, List.nil_append, List.findSome?_cons] at *
  rw [hinterpolated, hcharacter, hdecimal, hname]
  simp only [Option.map_none, Option.map_some, htake]

theorem first?_name {l s : Text} (hl : IsName l) (hs : Ends s) :
    first? (l ++ s) = some (.token .name, l.length) := by
  obtain ⟨⟨c, rest, rfl, hstart⟩, hparts, hword⟩ := hl
  rw [first?_word hstart (List.forall_mem_cons.1 hparts).2 hs, reclassify, hword]
  rfl

theorem mem_keywords (k : Keyword) : k ∈ Keyword.all := by
  cases k with
  | qualifier q => cases q <;> decide
  | builtin b => cases b <;> decide
  | _ => decide

theorem first?_keyword (k : Keyword) {s : Text} (hs : Ends s) :
    first? (k.word ++ s) = some (.token (.keyword k), k.word.length) := by
  have hall : ∀ k ∈ Keyword.all, k.word.head?.any isNameStart = true ∧
      k.word.tail.all isNamePart = true ∧ Keyword.ofText? k.word = some k := by
    decide
  obtain ⟨hstart, hparts, hword⟩ := hall k (mem_keywords k)
  obtain ⟨c, hc, hstart⟩ := (Option.any_eq_true _ _).1 hstart
  obtain ⟨l, hl⟩ := List.head?_eq_some_iff.1 hc
  rw [hl] at hparts hword ⊢
  rw [List.tail_cons, List.all_eq_true] at hparts
  rw [first?_word hstart hparts hs, reclassify, hword]
  rfl

/-! ## Numbers -/

theorem mem_marks (m : Mark) : m ∈ Mark.all := by cases m <;> decide

theorem integer_append {l s : Text} (hne : l ≠ []) (hl : ∀ c ∈ l, isDecimal c = true)
    (hs : ∀ c ∈ s.head?, isDecimal c = false) : integer (l ++ s) = some l.length := by
  rw [integer, lengthWhile_append hl hs]
  cases l with
  | nil => exact absurd rfl hne
  | cons => rfl

theorem decimal_eq_none {l s : Text} (hne : l ≠ []) (hl : ∀ c ∈ l, isDecimal c = true)
    (hs : Ends s) : decimal (l ++ s) = none := by
  rw [decimal, integer_append hne hl hs.isDecimal]
  simp only [Option.bind_eq_bind, Option.bind_some, List.drop_left]
  split
  next rest =>
    have hrest : lengthWhile isDecimal rest = 0 := by
      have := lengthWhile_append (l := []) (p := isDecimal) (by simp) (hs.2.2.2 rfl)
      exact this
    rw [integer, hrest]
    rfl
  next => rfl

theorem exponentLength_append {exponent s : Text} {power : Int}
    (hexponent : IsExponent exponent power) (hs : Ends s) :
    exponentLength (exponent ++ s) = exponent.length := by
  cases hexponent with
  | none =>
    cases s with
    | nil => rfl
    | cons c rest =>
      refine if_neg ?_
      rintro (rfl | rfl)
      · exact absurd hs.1 (by decide)
      · exact absurd hs.1 (by decide)
  | plus hne hdigits | minus hne hdigits =>
    have hinteger := integer_append hne (fun c hc => isDecimal_of_isDigit (hdigits c hc))
      hs.isDecimal
    simp only [List.cons_append, exponentLength, true_or, or_true, if_true, hinteger,
      Option.elim_some, List.length_cons]
    omega

theorem decimal_append {whole fraction exponent s : Text} {power : Int} (hwhole : whole ≠ [])
    (hfraction : fraction ≠ []) (hdigits : ∀ c ∈ whole ++ fraction, isDecimal c = true)
    (hexponent : IsExponent exponent power) (hs : Ends s) :
    decimal (whole ++ ↑ '.' :: fraction ++ exponent ++ s) =
      some (whole ++ ↑ '.' :: fraction ++ exponent).length := by
  obtain ⟨hdigits, hdigits'⟩ := List.forall_mem_append.1 hdigits
  have hdot : isDecimal '.' = false := by decide
  have hstop := hexponent.head?_append hs.isDecimal
  have hlength := exponentLength_append hexponent hs
  rw [List.append_assoc, List.append_assoc, decimal,
    integer_append hwhole hdigits (by simpa using hdot)]
  simp only [Option.bind_eq_bind, Option.bind_some, List.drop_left, List.cons_append]
  rw [integer_append hfraction hdigits' hstop, Option.bind_some, List.drop_left, hlength]
  simp only [List.length_append, List.length_cons]
  congr 1
  omega

/-- A number starts like no other lexeme. -/
theorem first?_of_isDigit {c : CodePoint} (h : c.isDigit = true) (t : Text) : first? (c :: t) =
    match decimal (c :: t) with
    | some n => some (.token .floatLit, n)
    | none => (integer (c :: t)).map fun n => (.token .intLit, n) := by
  have hne (x : CodePoint) (hx : x.isDigit = false) : c ≠ x := by
    rintro rfl
    rw [h] at hx
    cases hx
  have hstart : isNameStart c = false := by
    by_cases hstart : isNameStart c = true
    · have := isDecimal_of_isNameStart hstart
      rw [isDecimal_of_isDigit h] at this
      cases this
    · exact Bool.eq_false_iff.2 hstart
  have hinterpolated : interpolated (c :: t) = none :=
    if_neg (by simp [hne 'i' rfl, hne 'f' rfl])
  have hspace : blanks (c :: t) = none := by
    simp [blanks, lengthWhile, isSpace, hne ' ' rfl, hne '\t' rfl, hne '\x0c' rfl, hne '\r' rfl,
      hne '\n' rfl]
  have hmark (m : Mark) : spelled m.text (c :: t) = none := by
    have hall : ∀ m ∈ Mark.all, m.text.head?.any (fun x => !x.isDigit) = true := by decide
    obtain ⟨x, hx, hdigit⟩ := (Option.any_eq_true _ _).1 (hall m (mem_marks m))
    obtain ⟨rest, hrest⟩ := List.head?_eq_some_iff.1 hx
    simp [spelled, hrest, (hne x (by simpa using hdigit)).symm]
  have hmarks : List.findSome? (fun p => (p.2 (c :: t)).map fun n =>
      (reclassify ((c :: t).take n) p.1, n))
      (Mark.all.map fun m => (Class.token (.mark m), spelled m.text)) = none := by
    simp [List.findSome?_map, Function.comp_def, hmark]
  rw [first?, shapes, List.findSome?_append, hmarks, Option.or_none]
  cases hdecimal : decimal (c :: t) <;> cases hinteger : integer (c :: t) <;>
    simp [hinterpolated, character, name, hstart, blockComment, string, hspace, lineComment,
      rawString, hne '\'' rfl, hne '/' rfl, hne '"' rfl, hne '`' rfl, hdecimal, hinteger,
      reclassify]

/-- A row of digits is a lexeme. -/
theorem first?_integer {l s : Text} (hne : l ≠ []) (hl : ∀ c ∈ l, c.isDigit = true)
    (hs : Ends s) : first? (l ++ s) = some (.token .intLit, l.length) := by
  have hdecimal (c : CodePoint) (hc : c ∈ l) : isDecimal c = true := isDecimal_of_isDigit (hl c hc)
  have hnone := decimal_eq_none hne hdecimal hs
  have hinteger := integer_append hne hdecimal hs.isDecimal
  cases l with
  | nil => exact absurd rfl hne
  | cons c l =>
    rw [List.cons_append] at hnone hinteger ⊢
    rw [first?_of_isDigit (hl c (List.mem_cons_self ..)), hnone, hinteger]
    rfl

/-- So are two rows of digits with a point between them, with or without an exponent. -/
theorem first?_decimal {whole fraction exponent s : Text} {power : Int} (hwhole : whole ≠ [])
    (hfraction : fraction ≠ []) (hdigits : ∀ c ∈ whole ++ fraction, c.isDigit = true)
    (hexponent : IsExponent exponent power) (hs : Ends s) :
    first? (whole ++ ↑ '.' :: fraction ++ exponent ++ s) =
      some (.token .floatLit, (whole ++ ↑ '.' :: fraction ++ exponent).length) := by
  have hdecimal := decimal_append hwhole hfraction
    (fun c hc => isDecimal_of_isDigit (hdigits c hc)) hexponent hs
  cases whole with
  | nil => exact absurd rfl hwhole
  | cons c whole =>
    simp only [List.cons_append] at hdecimal ⊢
    rw [first?_of_isDigit (hdigits c (List.mem_cons_self ..)), hdecimal]

end Lexeme

end Splice
