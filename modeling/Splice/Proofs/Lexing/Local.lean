import Splice.Proofs.Lexing.Shapes

/-!
# Lexemes in shorter and longer texts

A lexeme is found by looking at the text from its start on, at most up to the first character that
can no longer belong to it. So a lexeme that ends within the beginning of a text is also found in
the beginning alone.

* `Shape.IsLocal`: what a shape finds in the beginning of a text, and in all of it.
* `Lexeme.first?_take`: the first lexeme of the beginning of a text.
* `Cuts.take`: all lexemes of the beginning of a text.
-/

namespace Splice

/-- A lexeme of the shape is found in the beginning of a text if it ends there, and it may be longer
in the text but is not lost. -/
structure Shape.IsLocal (shape : Shape) : Prop where
  take {x y : Text} {n : Nat} (h : shape (x ++ y) = some n) (hn : n ≤ x.length) : shape x = some n
  append {x : Text} {n : Nat} (h : shape x = some n) (y : Text) : (shape (x ++ y)).isSome = true

theorem Shape.IsLocal.eq_none {shape : Shape} (h : shape.IsLocal) {x y : Text}
    (hxy : shape (x ++ y) = none) : shape x = none := by
  rw [Option.eq_none_iff_forall_ne_some]
  intro n hx
  have := h.append hx y
  rw [hxy] at this
  cases this

/-- A lexeme of the shape has an end of its own, and nothing behind it makes it longer. -/
structure Shape.IsClosed (shape : Shape) : Prop where
  take {x y : Text} {n : Nat} (h : shape (x ++ y) = some n) (hn : n ≤ x.length) : shape x = some n
  append {x : Text} {n : Nat} (h : shape x = some n) (y : Text) : shape (x ++ y) = some n

theorem Shape.IsClosed.isLocal {shape : Shape} (h : shape.IsClosed) : shape.IsLocal :=
  ⟨h.take, fun hx y => by rw [h.append hx y]; rfl⟩

/-! ## Shapes with an end -/

theorem Quoted.tail_closed (escaped : CodePoint → Bool) (quote : CodePoint) :
    Shape.IsClosed (tail escaped quote) := by
  refine ⟨fun {x y n} h hn => ?_, fun h y => tail_append h y⟩
  have htake := tail_take h
  rw [List.take_append_of_le_length hn] at htake
  have := tail_append htake (x.drop n)
  rwa [List.take_append_drop] at this

theorem lengthThrough_closed {mark : Text} (hmark : mark ≠ []) :
    Shape.IsClosed (lengthThrough mark) := by
  refine ⟨fun {x y n} h hn => ?_, fun h y => lengthThrough_append h y⟩
  have htake := lengthThrough_take hmark h
  rw [List.take_append_of_le_length hn] at htake
  have := lengthThrough_append htake (x.drop n)
  rwa [List.take_append_drop] at this

/-- A shape behind one of some characters. -/
def Shape.behind (first : CodePoint → Bool) (shape : Shape) : Shape
  | [] => none
  | c :: rest => if first c then (shape rest).map (1 + ·) else none

theorem Shape.behind_eq_some {first : CodePoint → Bool} {shape : Shape} {t : Text} {n : Nat} :
    behind first shape t = some n ↔
      ∃ c rest m, t = c :: rest ∧ first c = true ∧ shape rest = some m ∧ n = 1 + m := by
  cases t with
  | nil => exact ⟨nofun, nofun⟩
  | cons c rest =>
    simp only [behind, Option.ite_none_right_eq_some, Option.map_eq_some_iff]
    constructor
    · rintro ⟨hc, m, hm, rfl⟩
      exact ⟨c, rest, m, rfl, hc, hm, rfl⟩
    · rintro ⟨_, _, m, ⟨⟩, hc, hm, rfl⟩
      exact ⟨hc, m, hm, rfl⟩

/-- What a lexeme behind a character looks like. -/
theorem Shape.behind_append {first : CodePoint → Bool} {shape : Shape} {l s : Text}
    (h : behind first shape (l ++ s) = some l.length) :
    ∃ c inner, l = c :: inner ∧ first c = true ∧ shape (inner ++ s) = some inner.length := by
  obtain ⟨c, rest, m, heq, hc, hm, hlength⟩ := behind_eq_some.1 h
  cases l with
  | nil =>
    rw [List.length_nil] at hlength
    omega
  | cons d inner =>
    cases heq
    obtain rfl : inner.length = m := by
      rw [List.length_cons] at hlength
      omega
    exact ⟨_, inner, rfl, hc, hm⟩

theorem Shape.IsClosed.behind {shape : Shape} (h : shape.IsClosed) (first : CodePoint → Bool) :
    (Shape.behind first shape).IsClosed := by
  refine ⟨fun {x y n} hxy hn => ?_, fun {x n} hx y => ?_⟩
  · obtain ⟨c, rest, m, heq, hc, hm, rfl⟩ := behind_eq_some.1 hxy
    cases x with
    | nil => exact absurd hn (by simp)
    | cons _ x =>
      cases heq
      rw [List.length_cons, Nat.add_comm] at hn
      exact behind_eq_some.2 ⟨c, x, m, rfl, hc, h.take hm (Nat.le_of_succ_le_succ hn), rfl⟩
  · obtain ⟨c, rest, m, rfl, hc, hm, rfl⟩ := behind_eq_some.1 hx
    exact behind_eq_some.2 ⟨c, rest ++ y, m, rfl, hc, h.append hm y, rfl⟩

theorem Shape.eq_behind {shape inner : Shape} {first : CodePoint}
    (hfirst : ∀ rest, shape (first :: rest) = (inner rest).map (1 + ·))
    (hother : ∀ t, t.head? ≠ some first → shape t = none) :
    shape = behind (· = first) inner := by
  funext t
  cases t with
  | nil => exact hother [] nofun
  | cons c rest =>
    by_cases hc : c = first
    · rw [hc, hfirst, behind, if_pos (decide_eq_true rfl)]
    · rw [hother _ (by simpa using hc), behind, if_neg (by simpa using hc)]

namespace Lexeme

theorem string_eq : string = Shape.behind (· = '"') (Quoted.tail isEscapable '"') := by
  refine Shape.eq_behind (fun _ => rfl) fun t ht => ?_
  unfold string
  split
  · exact absurd rfl ht
  · rfl

theorem string_closed : Shape.IsClosed string :=
  string_eq ▸ (Quoted.tail_closed _ _).behind _

theorem interpolated_eq : interpolated = Shape.behind (fun c => c = 'i' ∨ c = 'f') string := by
  funext t
  cases t with
  | nil => rfl
  | cons c rest => simp [interpolated, Shape.behind]

theorem interpolated_closed : Shape.IsClosed interpolated :=
  interpolated_eq ▸ string_closed.behind _

/-- A character literal behind its opening quote. It is not empty. -/
def characterEnd : Shape := fun t =>
  if t.head? = some ↑ '\'' then none else Quoted.tail isEscapable '\'' t

theorem character_eq : character = Shape.behind (· = '\'') characterEnd := by
  refine Shape.eq_behind (fun rest => ?_) fun t ht => ?_
  · rw [characterEnd]
    split
    next hhead =>
      obtain ⟨later, rfl⟩ := List.head?_eq_some_iff.1 hhead
      rfl
    next hhead =>
      rw [character]
      rintro later rfl
      exact hhead rfl
  · unfold character
    split
    · rfl
    · exact absurd rfl ht
    · rfl

theorem characterEnd_closed : Shape.IsClosed characterEnd := by
  have hhead {x : Text} (hx : x ≠ []) (y : Text) : (x ++ y).head? = x.head? := by
    obtain ⟨c, x, rfl⟩ := List.exists_cons_of_ne_nil hx
    rfl
  refine ⟨fun {x y n} h hn => ?_, fun {x n} h y => ?_⟩
  · simp only [characterEnd, Option.ite_none_left_eq_some] at h ⊢
    have hpos := (Quoted.tail_proper _ _ _ _ h.2).1
    rw [hhead (List.ne_nil_of_length_pos (by omega))] at h
    exact ⟨h.1, (Quoted.tail_closed _ _).take h.2 hn⟩
  · simp only [characterEnd, Option.ite_none_left_eq_some] at h ⊢
    have hx : x ≠ [] := by
      rintro rfl
      cases h.2
    rw [hhead hx]
    exact ⟨h.1, (Quoted.tail_closed _ _).append h.2 y⟩

theorem character_closed : Shape.IsClosed character := character_eq ▸ characterEnd_closed.behind _

theorem rawString_eq : rawString = Shape.behind (· = '`') (lengthThrough ['`']) := by
  refine Shape.eq_behind (fun _ => rfl) fun t ht => ?_
  unfold rawString
  split
  · exact absurd rfl ht
  · rfl

theorem rawString_closed : Shape.IsClosed rawString :=
  rawString_eq ▸ (lengthThrough_closed (by simp)).behind _

theorem blockComment_eq : blockComment =
    Shape.behind (· = '/') (Shape.behind (· = '*') (lengthThrough ['*', '/'])) := by
  refine Shape.eq_behind (fun rest => ?_) fun t ht => ?_
  · unfold blockComment
    split
    next later heq =>
      cases heq
      rw [Shape.behind, if_pos (decide_eq_true rfl), Option.map_map]
      exact congrArg (Option.map · _) (funext fun n => Nat.add_assoc 1 1 n)
    next hstar =>
      cases rest with
      | nil => rfl
      | cons c later =>
        have hc : c ≠ '*' := fun hc => hstar later (by rw [hc])
        rw [Shape.behind, if_neg (by simpa using hc)]
        rfl
  · unfold blockComment
    split
    · exact absurd rfl ht
    · rfl

theorem blockComment_closed : Shape.IsClosed blockComment :=
  blockComment_eq ▸ ((lengthThrough_closed (by simp)).behind _).behind _

/-! ## Rows of characters -/

theorem lengthWhile_eq_min (p : CodePoint → Bool) (x y : Text) :
    lengthWhile p x = min x.length (lengthWhile p (x ++ y)) := by
  induction x with
  | nil => simp [lengthWhile]
  | cons c x ih =>
    rw [List.cons_append, lengthWhile, lengthWhile, List.takeWhile_cons, List.takeWhile_cons]
    split
    · simp only [List.length_cons]
      change lengthWhile p x + 1 = min (x.length + 1) (lengthWhile p (x ++ y) + 1)
      omega
    · rfl

theorem name_local : Shape.IsLocal name := by
  refine ⟨fun {x y n} h hn => ?_, fun {x n} h y => ?_⟩
  · have hpos := (name_proper _ _ h).1
    cases x with
    | nil => exact absurd hpos (by simpa using hn)
    | cons c x =>
      have hmin := lengthWhile_eq_min isNamePart x y
      simp only [List.cons_append, name, Option.ite_none_right_eq_some, Option.some.injEq,
        List.length_cons] at h hn ⊢
      exact ⟨h.1, by omega⟩
  · cases x with
    | nil => cases h
    | cons c x =>
      simp only [name, Option.ite_none_right_eq_some] at h
      simp [name, h.1]

theorem row_local (p : CodePoint → Bool) : Shape.IsLocal (row p) := by
  refine ⟨fun {x y n} h hn => ?_, fun {x n} h y => ?_⟩
  · obtain ⟨hlength, hpos⟩ := row_eq_some_iff.1 h
    have hmin := lengthWhile_eq_min p x y
    exact row_eq_some_iff.2 ⟨by omega, hpos⟩
  · obtain ⟨hlength, hpos⟩ := row_eq_some_iff.1 h
    have hmin := lengthWhile_eq_min p x y
    exact Option.isSome_iff_exists.2 ⟨_, row_eq_some_iff.2 ⟨rfl, by omega⟩⟩

theorem integer_local : Shape.IsLocal integer := row_local isDecimal

theorem blanks_local : Shape.IsLocal blanks := row_local isSpace

theorem lineComment_local : Shape.IsLocal lineComment := by
  refine ⟨fun {x y n} h hn => ?_, fun {x n} h y => ?_⟩
  · obtain ⟨rest, heq, rfl⟩ := lineComment_eq_some_iff.1 h
    match x with
    | [] | [_] =>
      simp only [List.length_cons, List.length_nil] at hn
      omega
    | _ :: _ :: x =>
      simp only [List.cons_append, List.cons.injEq] at heq
      obtain ⟨rfl, rfl, rfl⟩ := heq
      have hmin := lengthWhile_eq_min (· ≠ '\n') x y
      simp only [List.length_cons] at hn
      exact lineComment_eq_some_iff.2 ⟨x, rfl, by omega⟩
  · obtain ⟨rest, rfl, rfl⟩ := lineComment_eq_some_iff.1 h
    exact Option.isSome_iff_exists.2 ⟨_, lineComment_eq_some_iff.2 ⟨rest ++ y, rfl, rfl⟩⟩

theorem spelled_local (spelling : Text) : Shape.IsLocal (spelled spelling) := by
  refine ⟨fun {x y n} h hn => ?_, fun {x n} h y => ?_⟩
  · obtain ⟨hstarts, rfl⟩ := spelled_eq_some_iff.1 h
    exact spelled_eq_some_iff.2
      ⟨List.prefix_of_prefix_length_le hstarts (List.prefix_append x y) hn, rfl⟩
  · obtain ⟨hstarts, -⟩ := spelled_eq_some_iff.1 h
    exact Option.isSome_iff_exists.2
      ⟨_, spelled_eq_some_iff.2 ⟨hstarts.trans (List.prefix_append x y), rfl⟩⟩

/-! ## Numbers with a fraction -/

/-- What an integer adds to a length does not depend on the text behind it. -/
theorem elim_integer_take {x y : Text} {k : Nat}
    (h : (integer (x ++ y)).elim 0 (k + ·) ≤ k + x.length) :
    (integer x).elim 0 (k + ·) = (integer (x ++ y)).elim 0 (k + ·) := by
  cases hxy : integer (x ++ y) with
  | none => rw [integer_local.eq_none hxy]
  | some n =>
    rw [hxy] at h
    rw [integer_local.take hxy (Nat.le_of_add_le_add_left h)]

theorem exponentLength_take {x y : Text} (h : exponentLength (x ++ y) ≤ x.length) :
    exponentLength x = exponentLength (x ++ y) := by
  match x with
  | [] => exact (Nat.le_zero.1 h).symm
  -- The digits behind a mark that ends the text would have to come from `y`.
  | [c] =>
    simp only [List.cons_append, List.nil_append, exponentLength, List.length_singleton,
      ite_self] at h ⊢
    split at h
    next he =>
      rw [if_pos he]
      cases y with
      | nil => rfl
      | cons sign digits =>
        simp only at h ⊢
        split at h
        next hsign =>
          rw [if_pos hsign]
          exact elim_integer_take (x := []) (k := 2) (by simp; omega)
        next hsign =>
          rw [if_neg hsign]
          exact elim_integer_take (x := []) (k := 1) h
    next he => rw [if_neg he]
  | c :: sign :: digits =>
    simp only [List.cons_append, exponentLength, List.length_cons] at h ⊢
    split at h
    next he =>
      rw [if_pos he, if_pos he]
      split at h
      next hsign =>
        rw [if_pos hsign, if_pos hsign]
        exact elim_integer_take (by omega)
      next hsign =>
        rw [if_neg hsign, if_neg hsign]
        exact elim_integer_take (x := sign :: digits) (by simp; omega)
    next he => rw [if_neg he, if_neg he]

theorem decimal_local : Shape.IsLocal decimal := by
  refine ⟨fun {x y n} h hn => ?_, fun {x n} h y => ?_⟩
  · obtain ⟨whole, rest, fraction, hwhole, hrest, hfraction, rfl⟩ := decimal_eq_some_iff.1 h
    rw [List.drop_append_of_le_length (by omega)] at hrest
    have hlength : 0 < (x.drop whole).length := by
      rw [List.length_drop]
      omega
    obtain ⟨c, later, hdrop⟩ := List.exists_cons_of_length_pos hlength
    rw [hdrop, List.cons_append, List.cons.injEq] at hrest
    obtain ⟨rfl, rfl⟩ := hrest
    have hlater : x.length = whole + 1 + later.length := by
      have := congrArg List.length hdrop
      rw [List.length_drop, List.length_cons] at this
      omega
    rw [List.drop_append_of_le_length (by omega)] at hn ⊢
    -- The exponent is cut from what follows the fraction, and it ends before `y` as well.
    have hexponent : exponentLength (later.drop fraction) =
        exponentLength (later.drop fraction ++ y) :=
      exponentLength_take (by rw [List.length_drop]; omega)
    rw [← hexponent]
    exact decimal_eq_some_iff.2 ⟨whole, later, fraction, integer_local.take hwhole (by omega),
      hdrop, integer_local.take hfraction (by omega), rfl⟩
  · obtain ⟨whole, rest, fraction, hwhole, hrest, hfraction, rfl⟩ := decimal_eq_some_iff.1 h
    obtain ⟨hlength, hpos⟩ := integer_eq_some hwhole
    have hle : whole < x.length := by
      have := congrArg List.length hrest
      rw [List.length_drop, List.length_cons] at this
      omega
    have hmin := lengthWhile_eq_min isDecimal x y
    obtain ⟨fraction', hfraction'⟩ := Option.isSome_iff_exists.1 (integer_local.append hfraction y)
    refine Option.isSome_iff_exists.2 ⟨_, decimal_eq_some_iff.2 ⟨whole, rest ++ y, fraction',
      row_eq_some_iff.2 ⟨by omega, hpos⟩, ?_, hfraction', rfl⟩⟩
    rw [List.drop_append_of_le_length (by omega), hrest, List.cons_append]

/-! ## The first shape -/

theorem shapes_local : ∀ s ∈ shapes, Shape.IsLocal s.2 := by
  simp only [shapes, List.forall_mem_append, List.forall_mem_cons, List.forall_mem_map]
  refine ⟨⟨interpolated_closed.isLocal, character_closed.isLocal, decimal_local, name_local,
    blockComment_closed.isLocal, string_closed.isLocal, blanks_local, lineComment_local,
    rawString_closed.isLocal, integer_local, List.forall_mem_nil _⟩, fun m _ => ?_⟩
  exact spelled_local m.text

/-- What one shape finds at the start of a text. -/
def find (t : Text) (s : Class × Shape) : Option (Class × Nat) :=
  (s.2 t).map fun n => (reclassify (t.take n) s.1, n)

theorem first?_eq (t : Text) : first? t = shapes.findSome? (find t) := rfl

theorem findSome?_take {tried : List (Class × Shape)} (htried : ∀ s ∈ tried, Shape.IsLocal s.2)
    {x y : Text} {kind : Class} {n : Nat} (h : tried.findSome? (find (x ++ y)) = some (kind, n))
    (hn : n ≤ x.length) : tried.findSome? (find x) = some (kind, n) := by
  induction tried with
  | nil => cases h
  | cons s tried ih =>
    obtain ⟨hs, htried⟩ := List.forall_mem_cons.1 htried
    rw [List.findSome?_cons] at h ⊢
    cases hxy : s.2 (x ++ y) with
    | none =>
      rw [find, hxy] at h
      rw [find, hs.eq_none hxy]
      exact ih htried h
    | some m =>
      rw [find, hxy] at h
      cases h
      rw [find, hs.take hxy hn, List.take_append_of_le_length hn]
      rfl

/-- A lexeme that ends in the beginning of a text is found there. -/
theorem first?_take {x y : Text} {kind : Class} {n : Nat} (h : first? (x ++ y) = some (kind, n))
    (hn : n ≤ x.length) : first? x = some (kind, n) :=
  findSome?_take shapes_local h hn

end Lexeme

/-- The lexemes up to a boundary are found in the text up to there. -/
theorem Cuts.take {x y : Text} {lexemes : List Lexeme} (h : Cuts (x ++ y) lexemes y) :
    Cuts x lexemes [] := by
  induction lexemes generalizing x with
  | nil =>
    obtain rfl : x = [] := by simpa using h.text_eq
    exact .done []
  | cons l lexemes ih =>
    obtain ⟨kind, t⟩ := l
    obtain ⟨n, hfirst, rfl, hlater⟩ := h.uncons
    have hn : n ≤ x.length := by
      have hlength := congrArg List.length hlater.text_eq
      have hle := (Lexeme.first?_proper hfirst).2
      simp only [List.length_drop, List.length_append] at hlength hle
      omega
    rw [List.drop_append_of_le_length hn] at hlater
    rw [List.take_append_of_le_length hn]
    exact .next (Lexeme.first?_take hfirst hn) (ih hlater)

end Splice
