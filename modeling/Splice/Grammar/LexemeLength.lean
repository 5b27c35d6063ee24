import Splice.Grammar.Lexeme

/-!
# The length of lexemes

Every lexeme takes at least one character and ends within the text, so a lexer that goes on behind
each lexeme reaches the end of the text.

* `Quoted.tail_proper`, `lengthThrough_proper`: the two ways in which a lexeme finds its end.
* `Lexeme.first?_proper`: the length of the lexeme at the start of a text.
-/

namespace Splice

/-- A shape takes at least one character, and no more than there are. -/
def Shape.Proper (shape : Shape) : Prop := ∀ t n, shape t = some n → 0 < n ∧ n ≤ t.length

theorem Quoted.tail_proper (escaped : CodePoint → Bool) (quote : CodePoint) :
    Shape.Proper (Quoted.tail escaped quote) := by
  intro t
  fun_induction Quoted.tail escaped quote t with
  | case1 => simp
  | case2 => simp
  | case3 c rest hc ih =>
    intro n h
    obtain ⟨m, hm, rfl⟩ := Option.map_eq_some_iff.1 h
    have := ih m hm
    simp only [List.length_cons]
    omega
  | case4 => simp
  | case5 rest =>
    intro n h
    cases h
    simp
  | case6 c rest _ _ _ ih =>
    intro n h
    obtain ⟨m, hm, rfl⟩ := Option.map_eq_some_iff.1 h
    have := ih m hm
    simp only [List.length_cons]
    omega

theorem lengthThrough_proper {mark : Text} (h : mark ≠ []) : Shape.Proper (lengthThrough mark) := by
  intro t
  induction t with
  | nil => simp [lengthThrough]
  | cons c rest ih =>
    intro n hn
    rw [lengthThrough] at hn
    split at hn
    next hp =>
      cases hn
      exact ⟨List.length_pos_iff.2 h, (List.isPrefixOf_iff_prefix.1 hp).length_le⟩
    next =>
      obtain ⟨m, hm, rfl⟩ := Option.map_eq_some_iff.1 hn
      have := ih m hm
      simp only [List.length_cons]
      omega

theorem lengthWhile_le (p : CodePoint → Bool) (t : Text) : lengthWhile p t ≤ t.length :=
  (List.takeWhile_sublist p).length_le

namespace Lexeme

theorem name_proper : Shape.Proper name := by
  intro t n h
  cases t with
  | nil => simp [name] at h
  | cons c rest =>
    simp only [name, Option.ite_none_right_eq_some, Option.some.injEq] at h
    have := lengthWhile_le isNamePart rest
    simp only [List.length_cons]
    omega

theorem string_proper : Shape.Proper string := by
  intro t n h
  unfold string at h
  split at h
  next rest =>
    obtain ⟨m, hm, rfl⟩ := Option.map_eq_some_iff.1 h
    have := Quoted.tail_proper _ _ _ _ hm
    simp only [List.length_cons]
    omega
  next => simp at h

theorem interpolated_proper : Shape.Proper interpolated := by
  intro t n h
  cases t with
  | nil => simp [interpolated] at h
  | cons c rest =>
    simp only [interpolated, Option.ite_none_right_eq_some] at h
    obtain ⟨m, hm, rfl⟩ := Option.map_eq_some_iff.1 h.2
    have := string_proper _ _ hm
    simp only [List.length_cons]
    omega

theorem character_proper : Shape.Proper character := by
  intro t n h
  unfold character at h
  split at h
  next => simp at h
  next rest _ =>
    obtain ⟨m, hm, rfl⟩ := Option.map_eq_some_iff.1 h
    have := Quoted.tail_proper _ _ _ _ hm
    simp only [List.length_cons]
    omega
  next => simp at h

theorem rawString_proper : Shape.Proper rawString := by
  intro t n h
  unfold rawString at h
  split at h
  next rest =>
    obtain ⟨m, hm, rfl⟩ := Option.map_eq_some_iff.1 h
    have := lengthThrough_proper (by simp) _ _ hm
    simp only [List.length_cons]
    omega
  next => simp at h

theorem integer_proper : Shape.Proper integer := by
  intro t n h
  unfold integer at h
  split at h
  next => simp at h
  next hne =>
    cases h
    exact ⟨Nat.pos_of_ne_zero hne, lengthWhile_le isDecimal t⟩

theorem blanks_proper : Shape.Proper blanks := by
  intro t n h
  unfold blanks at h
  split at h
  next => simp at h
  next hne =>
    cases h
    exact ⟨Nat.pos_of_ne_zero hne, lengthWhile_le isSpace t⟩

theorem exponentLength_le (t : Text) : exponentLength t ≤ t.length := by
  unfold exponentLength
  split
  next c rest =>
    split
    next =>
      split
      next sign digits =>
        split
        next =>
          cases hd : integer digits with
          | none => simp
          | some m =>
            have := integer_proper _ _ hd
            simp only [Option.elim_some, List.length_cons]
            omega
        next =>
          cases hd : integer (sign :: digits) with
          | none => simp
          | some m =>
            have := integer_proper _ _ hd
            simp only [Option.elim_some, List.length_cons] at this ⊢
            omega
      next => simp
    next => simp
  next => simp

theorem decimal_proper : Shape.Proper decimal := by
  intro t n h
  simp only [decimal, Option.bind_eq_bind, Option.bind_eq_some_iff] at h
  obtain ⟨whole, hw, h⟩ := h
  have hw := integer_proper _ _ hw
  split at h
  next rest hr =>
    simp only [Option.bind_eq_some_iff, Option.some.injEq] at h
    obtain ⟨fraction, hf, rfl⟩ := h
    have hf := integer_proper _ _ hf
    have he := exponentLength_le (rest.drop fraction)
    have hl := congrArg List.length hr
    simp only [List.length_drop, List.length_cons] at he hl
    omega
  next => simp at h

theorem lineComment_proper : Shape.Proper lineComment := by
  intro t n h
  unfold lineComment at h
  split at h
  next rest =>
    cases h
    have := lengthWhile_le (· ≠ '\n') rest
    simp only [List.length_cons]
    omega
  next => simp at h

theorem blockComment_proper : Shape.Proper blockComment := by
  intro t n h
  unfold blockComment at h
  split at h
  next rest =>
    obtain ⟨m, hm, rfl⟩ := Option.map_eq_some_iff.1 h
    have := lengthThrough_proper (by simp) _ _ hm
    simp only [List.length_cons]
    omega
  next => simp at h

theorem spelled_proper {spelling : Text} (h : spelling ≠ []) : Shape.Proper (spelled spelling) := by
  intro t n hn
  unfold spelled at hn
  split at hn
  next hp =>
    cases hn
    exact ⟨List.length_pos_iff.2 h, (List.isPrefixOf_iff_prefix.1 hp).length_le⟩
  next => simp at hn

theorem shapes_proper : ∀ s ∈ shapes, Shape.Proper s.2 := by
  intro s hs
  simp only [shapes, List.mem_append, List.mem_map] at hs
  rcases hs with hs | ⟨m, _, rfl⟩
  · simp only [List.mem_cons, List.not_mem_nil, or_false] at hs
    rcases hs with rfl | rfl | rfl | rfl | rfl | rfl | rfl | rfl | rfl | rfl
    · exact interpolated_proper
    · exact character_proper
    · exact decimal_proper
    · exact name_proper
    · exact blockComment_proper
    · exact string_proper
    · exact blanks_proper
    · exact lineComment_proper
    · exact rawString_proper
    · exact integer_proper
  · exact spelled_proper (by cases m <;> simp [Mark.text])

/-- A lexeme takes at least one character of the text, and no more than there are. -/
theorem first?_proper {t : Text} {c : Class} {n : Nat} (h : first? t = some (c, n)) :
    0 < n ∧ n ≤ t.length := by
  obtain ⟨s, hs, h⟩ := List.exists_of_findSome?_eq_some h
  obtain ⟨m, hm, h⟩ := Option.map_eq_some_iff.1 h
  cases h
  exact shapes_proper s hs t _ hm

end Lexeme

end Splice
