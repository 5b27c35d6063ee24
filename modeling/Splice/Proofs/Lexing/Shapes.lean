import Mathlib.Data.List.Infix
import Splice.Proofs.Lexing.Cutting

/-!
# Which shape a lexeme has

The first shape of `Lexeme.shapes` that matches decides. `Lexeme.Found` names the shape of a lexeme
that was found, and `Lexeme.first?_of_…` say when a shape is the first one.

* `Lexeme.found_of_first?`: the shape of the lexeme at the start of a text.
* `Lexeme.shape_of_first?`: the shape of the tokens of a kind.
* `Quoted.tail_append`, `Quoted.tail_take`, `lengthThrough_append`, `lengthThrough_take`: what has
  found its end does not depend on the text behind it.
* `exists_lengthThrough`, `lengthThrough_singleton`, `lengthThrough_comment`: the first occurrence
  of a mark.
-/

namespace Splice

namespace Lexeme

/-- The shape of the lexeme of some class and length at the start of a text. Marks are tried last,
so a text that starts with one starts with no comment. -/
inductive Found (t : Text) (n : Nat) : Class → Prop
  | interpolated (h : interpolated t = some n) : Found t n (.token .interpolatedLit)
  | character (h : character t = some n) : Found t n (.token .charLit)
  | decimal (h : decimal t = some n) : Found t n (.token .floatLit)
  | name (h : name t = some n) : Found t n (reclassify (t.take n) (.token .name))
  | blockComment (h : blockComment t = some n) : Found t n .trivia
  | string (h : string t = some n) : Found t n (.token .stringLit)
  | blanks (h : blanks t = some n) : Found t n .trivia
  | lineComment (h : lineComment t = some n) : Found t n .trivia
  | rawString (h : rawString t = some n) : Found t n (.token .rawStringLit)
  | integer (h : integer t = some n) : Found t n (.token .intLit)
  | mark (m : Mark) (h : spelled m.text t = some n) (block : Lexeme.blockComment t = none)
      (line : Lexeme.lineComment t = none) : Found t n (.token (.mark m))

theorem found_of_first? {t : Text} {kind : Class} {n : Nat} (h : first? t = some (kind, n)) :
    Found t n kind := by
  simp only [first?, shapes, List.cons_append, List.nil_append, List.findSome?_cons] at h
  cases hint : interpolated t <;> simp only [hint, Option.map_some, Option.map_none] at h
  case some => cases h; exact .interpolated hint
  cases hchar : character t <;> simp only [hchar, Option.map_some, Option.map_none] at h
  case some => cases h; exact .character hchar
  cases hdec : decimal t <;> simp only [hdec, Option.map_some, Option.map_none] at h
  case some => cases h; exact .decimal hdec
  cases hname : name t <;> simp only [hname, Option.map_some, Option.map_none] at h
  case some => cases h; exact .name hname
  cases hblock : blockComment t <;> simp only [hblock, Option.map_some, Option.map_none] at h
  case some => cases h; exact .blockComment hblock
  cases hstr : string t <;> simp only [hstr, Option.map_some, Option.map_none] at h
  case some => cases h; exact .string hstr
  cases hblank : blanks t <;> simp only [hblank, Option.map_some, Option.map_none] at h
  case some => cases h; exact .blanks hblank
  cases hline : lineComment t <;> simp only [hline, Option.map_some, Option.map_none] at h
  case some => cases h; exact .lineComment hline
  cases hraw : rawString t <;> simp only [hraw, Option.map_some, Option.map_none] at h
  case some => cases h; exact .rawString hraw
  cases hnat : integer t <;> simp only [hnat, Option.map_some, Option.map_none] at h
  case some => cases h; exact .integer hnat
  obtain ⟨s, hs, h⟩ := List.exists_of_findSome?_eq_some h
  obtain ⟨m, -, rfl⟩ := List.mem_map.1 hs
  obtain ⟨k, hk, h⟩ := Option.map_eq_some_iff.1 h
  cases h
  exact .mark m hk hblock hline

/-- The shape of the lexemes of a kind. -/
def shapeOf : Terminal → Shape
  | .keyword _ | .name => name
  | .mark m => spelled m.text
  | .intLit => integer
  | .floatLit => decimal
  | .stringLit => string
  | .rawStringLit => rawString
  | .charLit => character
  | .interpolatedLit => interpolated
  | .endOfText => fun _ => none

theorem shape_of_first? {terminal : Terminal} {t : Text} {n : Nat}
    (h : first? t = some (.token terminal, n)) : shapeOf terminal t = some n := by
  have hfound := found_of_first? h
  generalize hkind : Class.token terminal = kind at hfound
  cases hfound with
  | name hname =>
    rw [reclassify] at hkind
    cases hword : Keyword.ofText? (t.take n) <;> rw [hword] at hkind <;> cases hkind <;> exact hname
  | mark m hmark =>
    cases hkind
    exact hmark
  | interpolated hshape | character hshape | decimal hshape | string hshape | rawString hshape
  | integer hshape =>
    cases hkind
    exact hshape
  | blockComment | blanks | lineComment => cases hkind

/-! ## The characters of a lexeme -/

theorem take_lengthWhile (p : CodePoint → Bool) (t : Text) :
    t.take (lengthWhile p t) = t.takeWhile p :=
  (List.prefix_iff_eq_take.1 (List.takeWhile_prefix p)).symm

theorem mem_take_lengthWhile {p : CodePoint → Bool} {t : Text} {c : CodePoint}
    (h : c ∈ t.take (lengthWhile p t)) : p c = true := by
  rw [take_lengthWhile] at h
  exact List.all_eq_true.1 List.all_takeWhile c h

/-- A row of characters ends where the text goes on with another one. -/
theorem lengthWhile_append {p : CodePoint → Bool} {l t : Text} (hl : ∀ c ∈ l, p c = true)
    (ht : ∀ c ∈ t.head?, p c = false) : lengthWhile p (l ++ t) = l.length := by
  have hstop : t.takeWhile p = [] := by
    cases t with
    | nil => rfl
    | cons c t => rw [List.takeWhile_cons, ht c rfl]; rfl
  rw [lengthWhile, List.takeWhile_append_of_pos hl, hstop, List.append_nil]

/-- A row of characters and what stands behind it. -/
theorem exists_lengthWhile (p : CodePoint → Bool) (t : Text) :
    ∃ l t', t = l ++ t' ∧ lengthWhile p t = l.length ∧ (∀ c ∈ l, p c = true) ∧
      ∀ c ∈ t'.head?, p c = false := by
  refine ⟨t.takeWhile p, t.dropWhile p, List.takeWhile_append_dropWhile.symm, rfl,
    List.all_eq_true.1 List.all_takeWhile, ?_⟩
  intro c hc
  have := List.head?_dropWhile_not p t
  rw [Option.mem_def.1 hc] at this
  simpa using this

theorem isNamePart_of_mem_take {t : Text} {n : Nat} (h : name t = some n) {c : CodePoint}
    (hc : c ∈ t.take n) : isNamePart c = true := by
  cases t with
  | nil => cases h
  | cons first rest =>
    simp only [name, Option.ite_none_right_eq_some, Option.some.injEq] at h
    obtain ⟨hfirst, rfl⟩ := h
    rw [Nat.add_comm, List.take_succ_cons, List.mem_cons] at hc
    rcases hc with rfl | hc
    · simp [isNamePart, hfirst]
    · exact mem_take_lengthWhile hc

/-- A row of at least one character with a property. -/
def row (p : CodePoint → Bool) : Shape := fun t =>
  match lengthWhile p t with
  | 0 => none
  | n => some n

theorem row_eq_some_iff {p : CodePoint → Bool} {t : Text} {n : Nat} :
    row p t = some n ↔ n = lengthWhile p t ∧ 0 < n := by
  unfold row
  split
  next hzero => exact ⟨nofun, fun ⟨hn, hpos⟩ => by omega⟩
  next hne =>
    rw [Option.some.injEq]
    exact ⟨fun h => ⟨h.symm, h ▸ Nat.pos_of_ne_zero hne⟩, fun h => h.1.symm⟩

theorem integer_eq_some {t : Text} {n : Nat} (h : integer t = some n) :
    n = lengthWhile isDecimal t ∧ 0 < n := row_eq_some_iff.1 h

theorem isDecimal_of_mem_take {t : Text} {n : Nat} (h : integer t = some n) {c : CodePoint}
    (hc : c ∈ t.take n) : isDecimal c = true := by
  obtain ⟨rfl, -⟩ := integer_eq_some h
  exact mem_take_lengthWhile hc

theorem isSpace_of_mem_take {t : Text} {n : Nat} (h : blanks t = some n) {c : CodePoint}
    (hc : c ∈ t.take n) : isSpace c = true := by
  obtain ⟨rfl, -⟩ := row_eq_some_iff.1 h
  exact mem_take_lengthWhile hc

/-- The characters of a number with a fraction. -/
def isDecimalPart (c : CodePoint) : Bool :=
  isDecimal c || (['.', 'e', 'E', '+', '-'] : Text).contains c

theorem isDecimalPart_of_mem_exponent {t : Text} {c : CodePoint}
    (hc : c ∈ t.take (exponentLength t)) : isDecimalPart c = true := by
  have digits {t : Text} {n : Nat} (h : integer t = some n) {c : CodePoint} (hc : c ∈ t.take n) :
      isDecimalPart c = true := by
    rw [isDecimalPart, isDecimal_of_mem_take h hc, Bool.true_or]
  unfold exponentLength at hc
  split at hc
  next e rest =>
    split at hc
    next he =>
      have hmark : isDecimalPart e = true := by rcases he with rfl | rfl <;> decide
      split at hc
      -- With a sign and without one, there is an exponent only if digits follow.
      next sign later =>
        split at hc
        next hsign =>
          have hmark' : isDecimalPart sign = true := by rcases hsign with rfl | rfl <;> decide
          cases hd : integer later with
          | none => simp [hd] at hc
          | some n =>
            rw [hd, Option.elim_some, Nat.add_comm, List.take_succ_cons, List.take_succ_cons,
              List.mem_cons, List.mem_cons] at hc
            rcases hc with rfl | rfl | hc
            · exact hmark
            · exact hmark'
            · exact digits hd hc
        next =>
          cases hd : integer (sign :: later) with
          | none => simp [hd] at hc
          | some n =>
            rw [hd, Option.elim_some, Nat.add_comm, List.take_succ_cons, List.mem_cons] at hc
            rcases hc with rfl | hc
            · exact hmark
            · exact digits hd hc
      next => cases hc
    next => cases hc
  next => cases hc

theorem decimal_eq_some_iff {t : Text} {n : Nat} : decimal t = some n ↔
    ∃ whole rest fraction, integer t = some whole ∧ t.drop whole = ↑ '.' :: rest ∧
      integer rest = some fraction ∧
      n = whole + 1 + fraction + exponentLength (rest.drop fraction) := by
  simp only [decimal, Option.bind_eq_bind, Option.bind_eq_some_iff]
  constructor
  · rintro ⟨whole, hwhole, h⟩
    split at h
    next rest hrest =>
      obtain ⟨fraction, hfraction, hn⟩ := Option.bind_eq_some_iff.1 h
      exact ⟨whole, rest, fraction, hwhole, hrest, hfraction, (Option.some.inj hn).symm⟩
    next => cases h
  · rintro ⟨whole, rest, fraction, hwhole, hrest, hfraction, rfl⟩
    refine ⟨whole, hwhole, ?_⟩
    rw [hrest]
    exact Option.bind_eq_some_iff.2 ⟨fraction, hfraction, rfl⟩

theorem isDecimalPart_of_mem_take {t : Text} {n : Nat} (h : decimal t = some n) {c : CodePoint}
    (hc : c ∈ t.take n) : isDecimalPart c = true := by
  obtain ⟨whole, rest, fraction, hwhole, hrest, hfraction, rfl⟩ := decimal_eq_some_iff.1 h
  rw [Nat.add_assoc, Nat.add_assoc, List.take_add, List.mem_append, hrest, Nat.add_comm 1,
    List.take_succ_cons, List.mem_cons, List.take_add, List.mem_append] at hc
  rcases hc with hc | rfl | hc | hc
  · rw [isDecimalPart, isDecimal_of_mem_take hwhole hc, Bool.true_or]
  · decide
  · rw [isDecimalPart, isDecimal_of_mem_take hfraction hc, Bool.true_or]
  · exact isDecimalPart_of_mem_exponent hc

theorem lineComment_eq_some_iff {t : Text} {n : Nat} : lineComment t = some n ↔
    ∃ rest, t = ↑ '/' :: ↑ '/' :: rest ∧ n = 2 + lengthWhile (· ≠ '\n') rest := by
  unfold lineComment
  split
  next rest =>
    rw [Option.some.injEq]
    refine ⟨fun h => ⟨rest, rfl, h.symm⟩, ?_⟩
    rintro ⟨_, ⟨⟩, rfl⟩
    rfl
  next hne =>
    refine ⟨nofun, ?_⟩
    rintro ⟨rest, rfl, -⟩
    exact absurd rfl (hne rest)

theorem prefix_of_lineComment {t : Text} {n : Nat} (h : lineComment t = some n) :
    (['/', '/'] : Text) <+: t.take n := by
  obtain ⟨rest, rfl, rfl⟩ := lineComment_eq_some_iff.1 h
  rw [Nat.add_comm, List.take_succ_cons, List.take_succ_cons]
  exact List.prefix_append (['/', '/'] : Text) _

theorem spelled_eq_some_iff {spelling t : Text} {n : Nat} :
    spelled spelling t = some n ↔ spelling <+: t ∧ n = spelling.length := by
  rw [spelled, Option.ite_none_right_eq_some, List.isPrefixOf_iff_prefix, Option.some.injEq,
    eq_comm (a := n)]

theorem spelled_eq_some {spelling t : Text} {n : Nat} (h : spelled spelling t = some n) :
    n = spelling.length ∧ ∃ rest, t = spelling ++ rest := by
  obtain ⟨⟨rest, rfl⟩, hn⟩ := spelled_eq_some_iff.1 h
  exact ⟨hn, rest, rfl⟩

theorem reclassify_name_ne_mark (t : Text) (m : Mark) :
    reclassify t (.token .name) ≠ .token (.mark m) := by
  rw [reclassify]
  cases Keyword.ofText? t <;> simp

/-- A lexeme that is an operator or a bracket. No comment starts there. -/
theorem mark_of_first? {t : Text} {m : Mark} {n : Nat} (h : first? t = some (.token (.mark m), n)) :
    n = m.text.length ∧ (∃ rest, t = m.text ++ rest) ∧ blockComment t = none ∧
      lineComment t = none := by
  have hfound := found_of_first? h
  generalize hkind : Class.token (.mark m) = kind at hfound
  cases hfound with
  | mark m' h hblock hline =>
    cases hkind
    obtain ⟨hn, ht⟩ := spelled_eq_some h
    exact ⟨hn, ht, hblock, hline⟩
  | name => exact absurd hkind.symm (reclassify_name_ne_mark _ m)
  | _ => cases hkind

end Lexeme

/-! ## Ends that were found -/

theorem Quoted.tail_cons {escaped : CodePoint → Bool} {quote c : CodePoint} (h : c ≠ '\\')
    (t : Text) :
    Quoted.tail escaped quote (c :: t) =
      if c = quote then some 1 else (Quoted.tail escaped quote t).map (· + 1) := by
  rw [Quoted.tail]
  · intro hc
    exact absurd hc h
  · intro _ _ hc
    exact absurd hc h

/-- A character at which neither equation for a backslash applies is none. -/
theorem Quoted.ne_backslash {c : CodePoint} {rest : Text} (hnil : c = '\\' → rest = [] → False)
    (hcons : ∀ d later, c = '\\' → rest = d :: later → False) : c ≠ '\\' := by
  rintro rfl
  cases rest with
  | nil => exact hnil rfl rfl
  | cons d later => exact hcons d later rfl rfl

theorem Quoted.tail_append {escaped : CodePoint → Bool} {quote : CodePoint} {t : Text} {n : Nat}
    (h : Quoted.tail escaped quote t = some n) (s : Text) :
    Quoted.tail escaped quote (t ++ s) = some n := by
  fun_induction Quoted.tail escaped quote t generalizing n with
  | case1 => cases h
  | case2 => cases h
  | case3 c rest hc ih =>
    obtain ⟨m, hm, rfl⟩ := Option.map_eq_some_iff.1 h
    rw [List.cons_append, List.cons_append, Quoted.tail, if_pos hc, ih hm]
    rfl
  | case4 => cases h
  | case5 rest hnil hcons =>
    have hc := Quoted.ne_backslash hnil hcons
    rw [List.cons_append, Quoted.tail_cons hc, if_pos rfl]
    exact h
  | case6 c rest hnil hcons hne ih =>
    have hc := Quoted.ne_backslash hnil hcons
    obtain ⟨m, hm, rfl⟩ := Option.map_eq_some_iff.1 h
    rw [List.cons_append, Quoted.tail_cons hc, if_neg hne, ih hm]
    rfl

/-- What stands behind the end of a literal does not matter. -/
theorem Quoted.tail_take {escaped : CodePoint → Bool} {quote : CodePoint} {t : Text} {n : Nat}
    (h : Quoted.tail escaped quote t = some n) :
    Quoted.tail escaped quote (t.take n) = some n := by
  fun_induction Quoted.tail escaped quote t generalizing n with
  | case1 => cases h
  | case2 => cases h
  | case3 c rest hc ih =>
    obtain ⟨m, hm, rfl⟩ := Option.map_eq_some_iff.1 h
    rw [List.take_succ_cons, List.take_succ_cons, Quoted.tail, if_pos hc, ih hm]
    rfl
  | case4 => cases h
  | case5 rest hnil hcons =>
    have hc := Quoted.ne_backslash hnil hcons
    cases h
    rw [List.take_succ_cons, Quoted.tail_cons hc, if_pos rfl]
  | case6 c rest hnil hcons hne ih =>
    have hc := Quoted.ne_backslash hnil hcons
    obtain ⟨m, hm, rfl⟩ := Option.map_eq_some_iff.1 h
    rw [List.take_succ_cons, Quoted.tail_cons hc, if_neg hne, ih hm]
    rfl

/-- A literal ends with its quote. -/
theorem Quoted.eq_of_tail {escaped : CodePoint → Bool} {quote : CodePoint} {t : Text} {n : Nat}
    (h : Quoted.tail escaped quote t = some n) :
    ∃ inner after, t = inner ++ quote :: after ∧ n = inner.length + 1 := by
  fun_induction Quoted.tail escaped quote t generalizing n with
  | case1 => cases h
  | case2 => cases h
  | case3 c rest _ ih =>
    obtain ⟨m, hm, rfl⟩ := Option.map_eq_some_iff.1 h
    obtain ⟨inner, after, rfl, rfl⟩ := ih hm
    exact ⟨'\\' :: c :: inner, after, rfl, rfl⟩
  | case4 => cases h
  | case5 rest =>
    cases h
    exact ⟨[], rest, rfl, rfl⟩
  | case6 c rest _ _ _ ih =>
    obtain ⟨m, hm, rfl⟩ := Option.map_eq_some_iff.1 h
    obtain ⟨inner, after, rfl, rfl⟩ := ih hm
    exact ⟨c :: inner, after, rfl, rfl⟩

/-- Where more characters may be escaped, a literal that ended still ends at the same place. -/
theorem Quoted.tail_weaken {escaped escaped' : CodePoint → Bool} (quote : CodePoint)
    (h : ∀ c, escaped c = true → escaped' c = true) {t : Text} {n : Nat}
    (ht : Quoted.tail escaped quote t = some n) : Quoted.tail escaped' quote t = some n := by
  fun_induction Quoted.tail escaped quote t generalizing n with
  | case1 => cases ht
  | case2 => cases ht
  | case3 c rest hc ih =>
    obtain ⟨m, hm, rfl⟩ := Option.map_eq_some_iff.1 ht
    rw [Quoted.tail, if_pos (h c hc), ih hm]
    rfl
  | case4 => cases ht
  | case5 rest hnil hcons =>
    rw [Quoted.tail, if_pos rfl]
    · exact ht
    · exact hnil
    · exact hcons
  | case6 c rest hnil hcons hne ih =>
    obtain ⟨m, hm, rfl⟩ := Option.map_eq_some_iff.1 ht
    rw [Quoted.tail, if_neg hne, ih hm]
    · rfl
    · exact hnil
    · exact hcons

theorem length_le_of_lengthThrough {mark t : Text} {n : Nat}
    (h : lengthThrough mark t = some n) : mark.length ≤ t.length := by
  induction t generalizing n with
  | nil => cases h
  | cons c t ih =>
    rw [lengthThrough] at h
    split at h
    next hp => exact (List.isPrefixOf_iff_prefix.1 hp).length_le
    next =>
      obtain ⟨m, hm, -⟩ := Option.map_eq_some_iff.1 h
      exact Nat.le_succ_of_le (ih hm)

theorem lengthThrough_append {mark t : Text} {n : Nat} (h : lengthThrough mark t = some n)
    (s : Text) : lengthThrough mark (t ++ s) = some n := by
  induction t generalizing n with
  | nil => cases h
  | cons c t ih =>
    rw [lengthThrough] at h
    rw [List.cons_append, lengthThrough]
    split at h
    next hp =>
      have hp' : mark.isPrefixOf (c :: (t ++ s)) = true := by
        rw [List.isPrefixOf_iff_prefix] at hp ⊢
        exact hp.trans (List.prefix_append (c :: t) s)
      rw [if_pos hp']
      exact h
    next hp =>
      obtain ⟨m, hm, rfl⟩ := Option.map_eq_some_iff.1 h
      have hp' : ¬ mark.isPrefixOf (c :: (t ++ s)) = true := by
        rw [List.isPrefixOf_iff_prefix] at hp ⊢
        exact fun hlong => hp (List.prefix_of_prefix_length_le hlong (List.prefix_append (c :: t) s)
          (Nat.le_succ_of_le (length_le_of_lengthThrough hm)))
      rw [if_neg hp', ih hm]
      rfl

/-- What stands behind the first occurrence of a mark does not matter. -/
theorem lengthThrough_take {mark t : Text} {n : Nat} (hmark : mark ≠ [])
    (h : lengthThrough mark t = some n) : lengthThrough mark (t.take n) = some n := by
  induction t generalizing n with
  | nil => cases h
  | cons c t ih =>
    rw [lengthThrough] at h
    split at h
    next hp =>
      cases h
      rw [List.isPrefixOf_iff_prefix] at hp
      rw [← List.prefix_iff_eq_take.1 hp]
      obtain ⟨d, mark, rfl⟩ := List.exists_cons_of_ne_nil hmark
      rw [lengthThrough, if_pos (List.isPrefixOf_iff_prefix.2 (List.prefix_refl _))]
    next hp =>
      obtain ⟨m, hm, rfl⟩ := Option.map_eq_some_iff.1 h
      have hp' : ¬ mark.isPrefixOf (c :: t.take m) = true := by
        rw [List.isPrefixOf_iff_prefix] at hp ⊢
        exact fun hshort => hp (hshort.trans (List.cons_prefix_cons.2 ⟨rfl, List.take_prefix m t⟩))
      rw [List.take_succ_cons, lengthThrough, if_neg hp', ih hm]
      rfl

/-- The first occurrence of a mark has none before it. -/
theorem exists_lengthThrough {mark : Text} (hmark : mark ≠ []) {t : Text} {n : Nat}
    (h : lengthThrough mark t = some n) :
    ∃ inner later, t = inner ++ (mark ++ later) ∧ n = inner.length + mark.length ∧
      ¬ mark <:+: inner := by
  induction t generalizing n with
  | nil => cases h
  | cons c t ih =>
    rw [lengthThrough] at h
    split at h
    next hstarts =>
      cases h
      obtain ⟨later, hlater⟩ := List.isPrefixOf_iff_prefix.1 hstarts
      refine ⟨[], later, hlater.symm, (Nat.zero_add _).symm, ?_⟩
      rwa [List.infix_nil]
    next hstarts =>
      obtain ⟨m, hm, rfl⟩ := Option.map_eq_some_iff.1 h
      obtain ⟨inner, later, rfl, rfl, hinner⟩ := ih hm
      refine ⟨c :: inner, later, rfl, by rw [List.length_cons]; omega, ?_⟩
      rw [List.infix_cons_iff, not_or]
      refine ⟨fun hbegins => hstarts ?_, hinner⟩
      exact List.isPrefixOf_iff_prefix.2 (hbegins.trans (List.prefix_append (c :: inner) _))

theorem lengthThrough_singleton {c : CodePoint} {inner : Text} (h : c ∉ inner) (s : Text) :
    lengthThrough [c] (inner ++ c :: s) = some (inner.length + 1) := by
  induction inner with
  | nil => simp [lengthThrough]
  | cons d inner ih =>
    obtain ⟨hne, hlater⟩ := List.ne_and_not_mem_of_not_mem_cons h
    have hstarts : ¬ [c].isPrefixOf (d :: (inner ++ c :: s)) = true := by simp [hne]
    rw [List.cons_append, lengthThrough, if_neg hstarts, ih hlater]
    rfl

theorem lengthThrough_comment {t : Text} (h : ¬ (['*', '/'] : Text) <:+: t) (s : Text) :
    lengthThrough ['*', '/'] (t ++ ↑ '*' :: ↑ '/' :: s) = some (t.length + 2) := by
  induction t with
  | nil => rfl
  | cons c t ih =>
    have hlater : ¬ (['*', '/'] : Text) <:+: t := fun hinside =>
      h (hinside.trans (List.suffix_cons c t).isInfix)
    have hhere : ¬ (['*', '/'] : Text).isPrefixOf (c :: (t ++ ↑ '*' :: ↑ '/' :: s)) = true := by
      rw [List.isPrefixOf_iff_prefix, List.cons_prefix_cons]
      rintro ⟨rfl, hstarts⟩
      cases t with
      | nil => simp at hstarts
      | cons d t =>
        obtain ⟨rfl, -⟩ := List.cons_prefix_cons.1 hstarts
        exact h (List.prefix_append (['*', '/'] : Text) t).isInfix
    rw [List.cons_append, lengthThrough, if_neg hhere, ih hlater]
    rfl

end Splice
