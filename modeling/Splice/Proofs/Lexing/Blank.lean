import Splice.Proofs.Body.Closing
import Splice.Proofs.Lexing.Local

/-!
# Lexemes before a blank

A blank ends what stands before it, so a text has the same first lexeme with a blank behind it. Only
blanks and a comment to the end of the line go on, and what has no end before the blank might find
one behind it.

* `NothingOpen`: no literal and no comment without an end starts a text.
* `NothingOpen.of_cuts`: nothing is open where a text that is cut to its end starts.
* `NothingOpen.shapes_append`, `Lexeme.first?_append`: the first lexeme of a text before a blank.
-/

namespace Splice

namespace Lexeme

/-- No lexeme starts with a quote that has no other one to end it. -/
theorem first?_of_open {c : CodePoint} {rest : Text} (hc : c ∈ (['"', '\'', '`'] : Text))
    (hstring : string (c :: rest) = none) (hcharacter : character (c :: rest) = none)
    (hraw : rawString (c :: rest) = none) : first? (c :: rest) = none := by
  simp only [List.mem_cons, List.not_mem_nil, or_false] at hc
  have hinteger : integer (c :: rest) = none := by rcases hc with rfl | rfl | rfl <;> rfl
  have hblanks : blanks (c :: rest) = none := by rcases hc with rfl | rfl | rfl <;> rfl
  have hname : isNameStart c = false := by rcases hc with rfl | rfl | rfl <;> decide
  rcases hc with rfl | rfl | rfl <;>
    simp [first?, shapes, interpolated, hcharacter, decimal, hinteger, name, hname, blockComment,
      hstring, hblanks, lineComment, hraw, Mark.all, spelled, Mark.text]

/-- Before a string that has no end, the letter of an interpolated literal is a name. -/
theorem first?_letter {c : CodePoint} (hc : c = 'i' ∨ c = 'f') {rest : Text}
    (h : string ('"' :: rest) = none) : first? (c :: '"' :: rest) = some (.token .name, 1) := by
  have hinteger : integer (c :: '"' :: rest) = none := by rcases hc with rfl | rfl <;> rfl
  have hstart : isNameStart c = true := by rcases hc with rfl | rfl <;> decide
  have hword : Keyword.ofText? [c] = none := by rcases hc with rfl | rfl <;> decide
  have hcharacter : character (c :: '"' :: rest) = none := by rcases hc with rfl | rfl <;> rfl
  have hpart : isNamePart '"' = false := by decide
  simp [first?, shapes, interpolated, h, hcharacter, decimal, hinteger, name, hstart, lengthWhile,
    hpart, reclassify, hword]

/-- Before a star that opens no comment, a slash is an operator. -/
theorem first?_slash {rest : Text} (h : blockComment ('/' :: '*' :: rest) = none) :
    first? ('/' :: '*' :: rest) = some (.token (.mark .slash), 1) := by
  have hinteger : integer ('/' :: '*' :: rest) = none := rfl
  have hblanks : blanks ('/' :: '*' :: rest) = none := rfl
  have hname : isNameStart '/' = false := by decide
  simp [first?, shapes, interpolated, character, decimal, hinteger, name, hname, h, hblanks, string,
    lineComment, rawString, reclassify, Mark.all, spelled, Mark.text]

end Lexeme

/-! ## What is open before a blank -/

/-- No literal and no comment without an end starts a text. -/
structure NothingOpen (t : Text) : Prop where
  string {rest : Text} (h : t = ↑ '"' :: rest) : (Lexeme.string t).isSome = true
  character {rest : Text} (h : t = ↑ '\'' :: rest) : (Lexeme.character t).isSome = true
  rawString {rest : Text} (h : t = ↑ '`' :: rest) : (Lexeme.rawString t).isSome = true
  interpolated {c : CodePoint} {rest : Text} (hc : c = 'i' ∨ c = 'f') (h : t = c :: '"' :: rest) :
    (Lexeme.string ('"' :: rest)).isSome = true
  blockComment {rest : Text} (h : t = ↑ '/' :: ↑ '*' :: rest) :
    (Lexeme.blockComment t).isSome = true

/-- A text that is cut to its end starts with no quote that has no other one to end it. -/
theorem Cuts.not_open {c : CodePoint} {rest : Text} {lexemes : List Lexeme}
    (h : Cuts (c :: rest) lexemes []) (hc : c ∈ (['"', '\'', '`'] : Text))
    (hstring : Lexeme.string (c :: rest) = none)
    (hcharacter : Lexeme.character (c :: rest) = none)
    (hraw : Lexeme.rawString (c :: rest) = none) : False := by
  cases h with
  | next first =>
    rw [Lexeme.first?_of_open hc hstring hcharacter hraw] at first
    cases first

/-- Nothing is open where a text that is cut to its end starts. -/
theorem NothingOpen.of_cuts {t : Text} {lexemes : List Lexeme} (h : Cuts t lexemes [])
    {offset : Nat} {loc : Loc} (hopens : ¬ OpensComment (tokensOf lexemes offset loc)) :
    NothingOpen t where
  string {rest} ht := by
    subst ht
    exact Option.isSome_iff_ne_none.2 fun hnone => h.not_open (by simp) hnone rfl rfl
  character {rest} ht := by
    subst ht
    exact Option.isSome_iff_ne_none.2 fun hnone => h.not_open (by simp) rfl hnone rfl
  rawString {rest} ht := by
    subst ht
    exact Option.isSome_iff_ne_none.2 fun hnone => h.not_open (by simp) rfl rfl hnone
  interpolated {c rest} hc ht := by
    subst ht
    refine Option.isSome_iff_ne_none.2 fun hnone => ?_
    cases h with
    | next first later =>
      rw [Lexeme.first?_letter hc hnone] at first
      cases first
      exact later.not_open (by simp) hnone rfl rfl
  blockComment {rest} ht := by
    subst ht
    refine Option.isSome_iff_ne_none.2 fun hnone => ?_
    cases h with
    | next first later =>
      rw [Lexeme.first?_slash hnone] at first
      cases first
      exact hopens (Closing.opensComment_of_cuts later (by simp) offset loc)

/-! ## Shapes before a blank -/

theorem Lexeme.isSpace_of {p : CodePoint → Bool}
    (h : p ' ' = false ∧ p '\t' = false ∧ p '\x0c' = false ∧ p '\r' = false ∧ p '\n' = false)
    {c : CodePoint} (hc : p c = true) : isSpace c = false := by
  cases hspace : isSpace c with
  | false => rfl
  | true =>
    simp only [isSpace, decide_eq_true_eq] at hspace
    rcases hspace with rfl | rfl | rfl | rfl | rfl <;> simp_all

section Shapes

variable {shape : Shape} {x : Text} {b : CodePoint}

/-- A lexeme without blanks does not go on over a blank. -/
theorem Shape.IsLocal.append_blank (h : shape.IsLocal)
    (hfree : ∀ {t n}, shape t = some n → ∀ c ∈ t.take n, Lexeme.isSpace c = false) (x : Text)
    (hb : Lexeme.isSpace b = true) (z : Text) : shape (x ++ b :: z) = shape x := by
  cases hlong : shape (x ++ b :: z) with
  | none => exact (h.eq_none hlong).symm
  | some n =>
    refine (h.take hlong (Nat.le_of_not_lt fun hn => ?_)).symm
    have hmem : b ∈ (x ++ b :: z).take n :=
      List.mem_take_iff_getElem.2 ⟨x.length, by simp; omega, by simp⟩
    rw [hfree hlong b hmem] at hb
    cases hb

/-- A row that ended does not go on. -/
theorem Lexeme.row_append {p : CodePoint → Bool} (h : ∃ c ∈ x, p c = false) (y : Text) :
    lengthWhile p (x ++ y) = lengthWhile p x := by
  have hmin := lengthWhile_eq_min p x y
  have hlt : lengthWhile p x < x.length := by
    refine Nat.lt_of_le_of_ne (lengthWhile_le p x) fun heq => ?_
    obtain ⟨c, hc, hfalse⟩ := h
    rw [← List.take_length (l := x), ← heq] at hc
    rw [mem_take_lengthWhile hc] at hfalse
    cases hfalse
  omega

/-- A comment up to the end of the line that ended does not go on. -/
theorem Lexeme.lineComment_append (hx : x ≠ []) (hb : Lexeme.isSpace b = true) (z : Text)
    (hline : ∀ {rest}, x = ↑ '/' :: ↑ '/' :: rest → ↑ '\n' ∈ rest) :
    lineComment (x ++ b :: z) = lineComment x := by
  match x with
  | [c] =>
    have hslash : b ≠ '/' := by rintro rfl; cases hb
    rw [List.singleton_append, lineComment, lineComment]
    · rintro rest ⟨⟩
    · rintro rest ⟨⟩
      exact hslash rfl
  | c :: d :: rest =>
    by_cases hcomment : c = '/' ∧ d = '/'
    · obtain ⟨rfl, rfl⟩ := hcomment
      have hend : ∃ c ∈ rest, decide (c ≠ '\n') = false := ⟨'\n', hline rfl, rfl⟩
      rw [List.cons_append, List.cons_append, lineComment, lineComment, row_append hend]
    · rw [List.cons_append, List.cons_append, lineComment, lineComment]
      · rintro later ⟨⟩
        exact hcomment ⟨rfl, rfl⟩
      · rintro later ⟨⟩
        exact hcomment ⟨rfl, rfl⟩

/-- A shape with an end of its own that is not open stays as it is. -/
theorem Shape.IsClosed.behind_append (h : shape.IsClosed) {first : CodePoint → Bool} {y : Text}
    (hopen : ∀ c ∈ (x ++ y).head?, first c = true → (Shape.behind first shape x).isSome = true) :
    Shape.behind first shape (x ++ y) = Shape.behind first shape x := by
  cases hx : Shape.behind first shape x with
  | some n => exact (h.behind first).append hx y
  | none =>
    rw [Option.eq_none_iff_forall_ne_some]
    intro n hn
    obtain ⟨c, rest, _, heq, hc, -⟩ := Shape.behind_eq_some.1 hn
    have := hopen c (by rw [heq]; rfl) hc
    rw [hx] at this
    cases this

theorem Shape.behind_congr {first : CodePoint → Bool} {y : Text} (hx : x ≠ [])
    (h : ∀ {c rest}, x = c :: rest → first c = true → shape (rest ++ y) = shape rest) :
    behind first shape (x ++ y) = behind first shape x := by
  obtain ⟨c, rest, rfl⟩ := List.exists_cons_of_ne_nil hx
  rw [List.cons_append, behind, behind]
  split
  next hc => rw [h rfl hc]
  next => rfl

/-- A blank does not close what is not open before it. -/
theorem Shape.append_blank {inner : Shape} {first : CodePoint}
    (heq : shape = behind (· = first) inner) (h : inner.IsClosed)
    (hfirst : Lexeme.isSpace first = false)
    (hopen : ∀ {rest}, x = first :: rest → (shape x).isSome = true)
    (hb : Lexeme.isSpace b = true) (z : Text) : shape (x ++ b :: z) = shape x := by
  subst heq
  refine h.behind_append fun c hc heq => ?_
  obtain rfl : c = first := by simpa using heq
  cases x with
  | nil =>
    cases hc
    rw [hb] at hfirst
    cases hfirst
  | cons c rest =>
    cases hc
    exact hopen rfl

end Shapes

namespace NothingOpen

variable {x : Text} {b : CodePoint}

theorem string_append (h : NothingOpen x) (hb : Lexeme.isSpace b = true) (z : Text) :
    Lexeme.string (x ++ b :: z) = Lexeme.string x :=
  Shape.append_blank Lexeme.string_eq (Quoted.tail_closed _ _) (by decide) h.string hb z

theorem character_append (h : NothingOpen x) (hb : Lexeme.isSpace b = true) (z : Text) :
    Lexeme.character (x ++ b :: z) = Lexeme.character x :=
  Shape.append_blank Lexeme.character_eq Lexeme.characterEnd_closed (by decide) h.character hb z

theorem rawString_append (h : NothingOpen x) (hb : Lexeme.isSpace b = true) (z : Text) :
    Lexeme.rawString (x ++ b :: z) = Lexeme.rawString x :=
  Shape.append_blank Lexeme.rawString_eq (lengthThrough_closed (by simp)) (by decide) h.rawString
    hb z

theorem interpolated_append (h : NothingOpen x) (hx : x ≠ []) (hb : Lexeme.isSpace b = true)
    (z : Text) : Lexeme.interpolated (x ++ b :: z) = Lexeme.interpolated x := by
  rw [Lexeme.interpolated_eq]
  refine Shape.behind_congr hx fun {c rest} heq hc => ?_
  have hopen : ∀ {later}, rest = ↑ '"' :: later → (Lexeme.string rest).isSome = true := by
    rintro later rfl
    exact h.interpolated (by simpa using hc) heq
  exact Shape.append_blank Lexeme.string_eq (Quoted.tail_closed _ _) (by decide) hopen hb z

theorem blockComment_append (h : NothingOpen x) (hx : x ≠ []) (hb : Lexeme.isSpace b = true)
    (z : Text) : Lexeme.blockComment (x ++ b :: z) = Lexeme.blockComment x := by
  have hopen := @h.blockComment
  rw [Lexeme.blockComment_eq] at hopen ⊢
  refine Shape.behind_congr hx fun {c rest} heq hc => ?_
  refine Shape.append_blank rfl (lengthThrough_closed (by simp)) (by decide)
    (fun {later} hrest => ?_) hb z
  obtain rfl : c = '/' := by simpa using hc
  have := hopen (hrest ▸ heq)
  rw [heq, Shape.behind, if_pos (decide_eq_true rfl), Option.isSome_map] at this
  exact this

/-- A blank behind a text leaves every shape at its start as it is, unless the text is blank or a
comment up to the end of the line. -/
theorem shapes_append (h : NothingOpen x) (hb : Lexeme.isSpace b = true) (z : Text)
    (hblank : ∃ c ∈ x, Lexeme.isSpace c = false)
    (hline : ∀ {rest}, x = ↑ '/' :: ↑ '/' :: rest → ↑ '\n' ∈ rest) :
    ∀ s ∈ Lexeme.shapes, s.2 (x ++ b :: z) = s.2 x := by
  have hx : x ≠ [] := by
    rintro rfl
    obtain ⟨c, hc, -⟩ := hblank
    cases hc
  have hblanks : Lexeme.blanks (x ++ b :: z) = Lexeme.blanks x := by
    rw [Lexeme.blanks, Lexeme.blanks, Lexeme.row_append hblank]
  simp only [Lexeme.shapes, List.forall_mem_append, List.forall_mem_cons, List.forall_mem_map]
  refine ⟨⟨h.interpolated_append hx hb z, h.character_append hb z,
    Lexeme.decimal_local.append_blank (fun ht c hc => Lexeme.isSpace_of (by decide)
      (Lexeme.isDecimalPart_of_mem_take ht hc)) x hb z,
    Lexeme.name_local.append_blank (fun ht c hc => Lexeme.isSpace_of (by decide)
      (Lexeme.isNamePart_of_mem_take ht hc)) x hb z,
    h.blockComment_append hx hb z, h.string_append hb z, hblanks,
    Lexeme.lineComment_append hx hb z hline,
    h.rawString_append hb z,
    Lexeme.integer_local.append_blank (fun ht c hc => Lexeme.isSpace_of (by decide)
      (Lexeme.isDecimal_of_mem_take ht hc)) x hb z, List.forall_mem_nil _⟩, fun m _ => ?_⟩
  refine (Lexeme.spelled_local m.text).append_blank (fun {t n} ht c hc => ?_) x hb z
  obtain ⟨rfl, rest, rfl⟩ := Lexeme.spelled_eq_some ht
  rw [List.take_left] at hc
  have hall : m.text.all (fun c => !Lexeme.isSpace c) = true := by cases m <;> decide
  simpa using List.all_eq_true.1 hall c hc

end NothingOpen

/-- The first lexeme is found through the shapes alone. -/
theorem Lexeme.first?_append {x y : Text} (h : ∀ s ∈ shapes, s.2 (x ++ y) = s.2 x) :
    first? (x ++ y) = first? x := by
  have hfind : ∀ s ∈ shapes, find (x ++ y) s = find x s := by
    intro s hs
    rw [find, find, h s hs]
    cases hx : s.2 x with
    | none => rfl
    | some n =>
      rw [Option.map_some, Option.map_some,
        List.take_append_of_le_length (shapes_proper s hs x n hx).2]
  rw [first?_eq, first?_eq]
  generalize shapes = tried at hfind
  induction tried with
  | nil => rfl
  | cons s tried ih =>
    obtain ⟨hs, htried⟩ := List.forall_mem_cons.1 hfind
    rw [List.findSome?_cons, List.findSome?_cons, hs, ih htried]

end Splice
