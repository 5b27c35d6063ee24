import Splice.Proofs.Literal.Quoting

/-!
# How literals are written

Between the quotes of a literal every character is written as itself or as an escape. A text that
is written so decodes to its characters, each at the place where its written form begins, and no
other text decodes.

* `IsForm`: the written forms of a character.
* `PlacedText.ofForms`: the characters of a row of written forms, at their places.
* `Escape.exists_forms`: every text is a row of written forms up to its end or up to a fault.
* `Escape.decode_eq_ok_iff`: decoding takes a text apart into written forms.
-/

namespace Splice

/-- The ways to write a character between the quotes of a literal. -/
inductive IsForm : Text → CodePoint → Prop
  | plain {c : CodePoint} (h : c ≠ '\\') : IsForm [c] c
  | letter {letter c : CodePoint} (h : (letter, c) ∈ Escape.simple) : IsForm ['\\', letter] c
  | byte {high low : CodePoint} {n : Nat} (h : hexNumber? [high, low] = some n) :
    IsForm ['\\', 'x', high, low] (CodePoint.ofNat n)
  | codePoint {digits : Text} {n : Nat} (hdigits : digits ≠ []) (h : hexNumber? digits = some n)
    (hn : n ≤ 0x10ffff) :
    IsForm ('\\' :: 'u' :: '{' :: (digits ++ (['}'] : Text))) (CodePoint.ofNat n)

theorem IsForm.ne_nil {t : Text} {c : CodePoint} (h : IsForm t c) : t ≠ [] := by
  cases h <;> exact List.cons_ne_nil _ _

/-- A row of written forms, each with its character. -/
abbrev Forms := List (Text × CodePoint)

namespace Forms

/-- The row as it is written. -/
def source (forms : Forms) : Text := forms.flatMap (·.1)

/-- The offset in the written row at which the form of a character begins. -/
def offset (forms : Forms) (k : Nat) : Nat := (source (forms.take k)).length

/-- Every form is one of its character. -/
def Valid (forms : Forms) : Prop := ∀ form ∈ forms, IsForm form.1 form.2

end Forms

/-- The characters of a row of written forms that stands at a place. -/
def PlacedText.ofForms : Forms → Loc → PlacedText
  | [], loc => ⟨[], loc⟩
  | form :: rest, loc => (ofForms rest (loc.advanceAll form.1)).cons form.2 loc

namespace Escape

theorem hexValue?_of_hexNumber? {digits : Text} {n : Nat} (h : hexNumber? digits = some n) :
    ∀ c ∈ digits, hexValue? c ≠ none := by
  have hfold (digits : Text) (start : Nat)
      (h : digits.foldlM (fun n c => (hexValue? c).map (n * 16 + ·)) start = some n) :
      ∀ c ∈ digits, hexValue? c ≠ none := by
    induction digits generalizing start with
    | nil => nofun
    | cons d digits ih =>
      rw [List.foldlM_cons] at h
      obtain ⟨m, hd, h⟩ := Option.bind_eq_some_iff.1 h
      refine List.forall_mem_cons.2 ⟨?_, ih m h⟩
      intro hnone
      rw [hnone] at hd
      cases hd
  exact hfold digits 0 h

theorem ne_brace_of_hexNumber? {digits : Text} {n : Nat} (h : hexNumber? digits = some n) :
    ∀ c ∈ digits, c ≠ '}' := by
  rintro _ hc rfl
  exact hexValue?_of_hexNumber? h _ hc rfl

/-- What was read as an escape is a written form of the character. -/
theorem isForm_of_read {t : Text} {c : CodePoint} {width : Nat} (h : read t = .ok (c, width)) :
    ∃ l rest, t = l ++ rest ∧ width = l.length + 1 ∧ IsForm ('\\' :: l) c := by
  -- The cases are those of the reader: two hexadecimal digits, a code point in braces, or a
  -- letter.
  unfold read at h
  split at h
  next => cases h
  next rest =>
    split at h
    next high low htake =>
      split at h
      next n hn =>
        cases h
        refine ⟨['x', high, low], rest.drop 2, ?_, rfl, .byte hn⟩
        rw [List.cons_append, ← htake, List.take_append_drop]
      next => cases h
    next => cases h
  next rest =>
    split at h
    next inner =>
      obtain ⟨digits, later, rfl, hlength, hdigits, hlater⟩ :=
        Lexeme.exists_lengthWhile (· ≠ '}') inner
      have htake : (digits ++ later).takeWhile (fun c : CodePoint => c ≠ '}') = digits := by
        rw [← Lexeme.take_lengthWhile, hlength, List.take_left]
      simp only [htake] at h
      split at h
      next => cases h
      next hclosed =>
        obtain ⟨hne, hlength⟩ := not_or.1 hclosed
        split at h
        next n hn =>
          split at h
          next hle =>
            cases h
            cases later with
            | nil => simp at hlength
            | cons brace later =>
              obtain rfl : brace = '}' := by simpa using hlater brace rfl
              exact ⟨'u' :: '{' :: (digits ++ (['}'] : Text)), later, by simp, by simp,
                .codePoint hne hn hle⟩
          next => cases h
        next => cases h
    next => cases h
  next d rest _ _ =>
    split at h
    next named hnamed =>
      cases h
      obtain ⟨before, after, hsimple, -⟩ := List.lookup_eq_some_iff.1 hnamed
      refine ⟨[d], rest, rfl, rfl, .letter ?_⟩
      rw [hsimple]
      exact List.mem_append_right _ List.mem_cons_self
    next => cases h

/-- A written form is the character itself, or a backslash with a text that is read as the
character whatever stands behind it. -/
theorem plain_or_read {w : Text} {c : CodePoint} (h : IsForm w c) :
    w = [c] ∧ c ≠ '\\' ∨
      ∃ l, w = ↑ '\\' :: l ∧ ∀ t, read (l ++ t) = .ok (c, l.length + 1) := by
  cases h with
  | plain h => exact .inl ⟨rfl, h⟩
  | @letter d _ h =>
    refine .inr ⟨[d], rfl, fun t => ?_⟩
    simp only [simple, List.mem_cons, Prod.mk.injEq, List.not_mem_nil, or_false] at h
    rcases h with ⟨rfl, rfl⟩ | ⟨rfl, rfl⟩ | ⟨rfl, rfl⟩ | ⟨rfl, rfl⟩ | ⟨rfl, rfl⟩ | ⟨rfl, rfl⟩ |
      ⟨rfl, rfl⟩ <;> rfl
  | @byte high low n h =>
    refine .inr ⟨['x', high, low], rfl, fun t => ?_⟩
    simp [read, h]
  | @codePoint digits n hdigits h hn =>
    refine .inr ⟨'u' :: '{' :: (digits ++ (['}'] : Text)), rfl, fun t => ?_⟩
    -- No hexadecimal digit is a brace, so the reader finds the brace that the form ends with.
    have hbrace : ∀ d ∈ digits, decide (d ≠ '}') = true := by
      simpa using ne_brace_of_hexNumber? h
    have htake : (digits ++ ↑ '}' :: t).takeWhile (fun c : CodePoint => c ≠ '}') = digits := by
      rw [List.takeWhile_append_of_pos hbrace, List.takeWhile_cons_of_neg (by simp),
        List.append_nil]
    have hclosed : ¬ (digits = [] ∨ digits.length = (digits ++ ↑ '}' :: t).length) := by
      refine not_or.2 ⟨hdigits, ?_⟩
      rw [List.length_append, List.length_cons]
      omega
    rw [List.cons_append, List.cons_append, List.append_assoc, List.singleton_append]
    simp only [read, htake, if_neg hclosed, h, if_pos hn]
    simp

/-- A written form of a character is read as it. -/
theorem decodeFrom_form {w : Text} {c : CodePoint} (h : IsForm w c) (t : Text) (loc : Loc) :
    decodeFrom (w ++ t) 0 loc = (decodeFrom t 0 (loc.advanceAll w)).map (.cons c loc) := by
  obtain ⟨rfl, hc⟩ | ⟨l, rfl, hread⟩ := plain_or_read h
  · rw [List.singleton_append, decodeFrom, if_neg hc]
    rfl
  · rw [List.cons_append, decodeFrom, if_pos rfl, hread]
    exact congrArg (Except.map (PlacedText.cons c loc)) (decodeFrom_pending l t _)

/-- A row of written forms is read as its characters. -/
theorem decodeFrom_source {forms : Forms} (h : forms.Valid) (loc : Loc) :
    decodeFrom forms.source 0 loc = .ok (.ofForms forms loc) := by
  induction forms generalizing loc with
  | nil => rfl
  | cons form forms ih =>
    obtain ⟨hform, hforms⟩ := List.forall_mem_cons.1 h
    rw [Forms.source, List.flatMap_cons, decodeFrom_form hform]
    exact congrArg (Except.map (PlacedText.cons form.2 loc)) (ih hforms _)

/-- A backslash that begins no escape is a fault, at its place behind a row of written forms. -/
theorem decodeFrom_source_fault {forms : Forms} (h : forms.Valid) {later : Text}
    {fault : EscapeFault} (hread : read later = .error fault) (loc : Loc) :
    decodeFrom (forms.source ++ ↑ '\\' :: later) 0 loc =
      .error (fault, loc.advanceAll forms.source) := by
  induction forms generalizing loc with
  | nil =>
    show decodeFrom ('\\' :: later) 0 loc = _
    rw [decodeFrom, if_pos rfl, hread]
    rfl
  | cons form forms ih =>
    obtain ⟨hform, hforms⟩ := List.forall_mem_cons.1 h
    rw [Forms.source, List.flatMap_cons, List.append_assoc, decodeFrom_form hform,
      Loc.advanceAll_append]
    exact congrArg (Except.map (PlacedText.cons form.2 loc)) (ih hforms _)

/-- Every text is a row of written forms and a rest, which is empty or a backslash that begins no
written form. -/
theorem exists_forms (t : Text) :
    ∃ (forms : Forms) (rest : Text), forms.Valid ∧ t = forms.source ++ rest ∧
      (rest = [] ∨ ∃ later fault, rest = ↑ '\\' :: later ∧ read later = .error fault) := by
  induction hlength : t.length using Nat.strongRecOn generalizing t with
  | ind n ih =>
    subst hlength
    -- The first form, and what stands behind it.
    have step {w rest : Text} {c : CodePoint} (hw : IsForm w c) (ht : t = w ++ rest) :
        ∃ (forms : Forms) (rest : Text), forms.Valid ∧ t = forms.source ++ rest ∧
          (rest = [] ∨ ∃ later fault, rest = ↑ '\\' :: later ∧ read later = .error fault) := by
      subst ht
      have hlt : rest.length < (w ++ rest).length := by
        have := List.length_pos_iff.2 hw.ne_nil
        rw [List.length_append]
        omega
      obtain ⟨forms, rest, hforms, rfl, hrest⟩ := ih _ hlt rest rfl
      refine ⟨(w, c) :: forms, rest, List.forall_mem_cons.2 ⟨hw, hforms⟩, ?_, hrest⟩
      exact (List.append_assoc _ _ _).symm
    cases t with
    | nil => exact ⟨[], [], nofun, rfl, .inl rfl⟩
    | cons c t =>
      by_cases hc : c = '\\'
      · subst hc
        cases hread : read t with
        | error fault => exact ⟨[], _, nofun, rfl, .inr ⟨t, fault, rfl, hread⟩⟩
        | ok result =>
          obtain ⟨l, rest, rfl, -, hform⟩ := isForm_of_read hread
          exact step hform rfl
      · exact step (.plain hc) rfl

/-- Decoding takes a text apart into written forms of the characters. -/
theorem decodeFrom_eq_ok_iff {t : Text} {loc : Loc} {p : PlacedText} :
    decodeFrom t 0 loc = .ok p ↔
      ∃ forms : Forms, forms.Valid ∧ t = forms.source ∧ p = .ofForms forms loc := by
  constructor
  · intro h
    obtain ⟨forms, rest, hforms, rfl, rfl | ⟨later, fault, rfl, hread⟩⟩ := exists_forms t
    · rw [List.append_nil, decodeFrom_source hforms] at h
      cases h
      exact ⟨forms, hforms, List.append_nil _, rfl⟩
    · rw [decodeFrom_source_fault hforms hread] at h
      cases h
  · rintro ⟨forms, hforms, rfl, rfl⟩
    exact decodeFrom_source hforms loc

theorem decode_eq_ok_iff {t : Text} {loc : Loc} {p : PlacedText} :
    decode t loc = .ok p ↔
      ∃ forms : Forms, forms.Valid ∧ t = forms.source ∧ p = .ofForms forms loc :=
  decodeFrom_eq_ok_iff

end Escape

/-- A form that is not the character itself is a backslash with a character, and more behind it
without backslashes and quotes. -/
theorem IsForm.eq_or {w : Text} {c : CodePoint} (h : IsForm w c) :
    w = [c] ∧ c ≠ '\\' ∨
      ∃ (x : CodePoint) (more : Text), w = ↑ '\\' :: x :: more ∧
        ∀ y ∈ more, y ≠ '\\' ∧ y ≠ '"' := by
  have hdigit {digits : Text} {n : Nat} (hn : hexNumber? digits = some n) :
      ∀ y ∈ digits, y ≠ '\\' ∧ y ≠ '"' := fun y hy =>
    have hvalue := Escape.hexValue?_of_hexNumber? hn y hy
    ⟨by rintro rfl; exact hvalue rfl, by rintro rfl; exact hvalue rfl⟩
  cases h with
  | plain h => exact .inl ⟨rfl, h⟩
  | letter => exact .inr ⟨_, [], rfl, nofun⟩
  | byte hn => exact .inr ⟨'x', _, rfl, hdigit hn⟩
  | codePoint _ hn =>
    refine .inr ⟨'u', _, rfl, List.forall_mem_cons.2 ⟨by decide, ?_⟩⟩
    exact List.forall_mem_append.2 ⟨hdigit hn, List.forall_mem_singleton.2 (by decide)⟩

namespace Forms

/-- A literal ends at the first quote that is written as itself, so there is none inside it. -/
theorem Valid.ne_quote {forms : Forms} (h : forms.Valid) {escaped : CodePoint → Bool} {s : Text}
    {n : Nat} (htail : Quoted.tail escaped '"' (forms.source ++ s) = some n)
    (hn : forms.source.length < n) : ∀ form ∈ forms, form.1 ≠ (['"'] : Text) := by
  induction forms generalizing n with
  | nil => exact List.forall_mem_nil _
  | cons form forms ih =>
    obtain ⟨w, c⟩ := form
    obtain ⟨hform, hforms⟩ := List.forall_mem_cons.1 h
    have hform : IsForm w c := hform
    have hsource : source ((w, c) :: forms) = w ++ source forms := List.flatMap_cons
    rw [hsource, List.append_assoc] at htail
    rw [hsource, List.length_append] at hn
    obtain ⟨rfl, hc⟩ | ⟨x, more, rfl, hmore⟩ := hform.eq_or
    · rw [List.length_singleton] at hn
      rw [List.singleton_append, Quoted.tail_cons hc] at htail
      split at htail
      next =>
        cases htail
        omega
      next hquote =>
        obtain ⟨m, hm, rfl⟩ := Option.map_eq_some_iff.1 htail
        refine List.forall_mem_cons.2 ⟨?_, ih hforms hm (by omega)⟩
        exact fun heq => hquote (List.cons.inj heq).1
    -- The lexer passes the backslash and the next character as a pair, so a quote in it does not
    -- count.
    · simp only [List.length_cons] at hn
      rw [List.cons_append, List.cons_append, Quoted.tail] at htail
      split at htail
      next =>
        rw [Quoted.tail_plain hmore, Option.map_map] at htail
        obtain ⟨m, hm, rfl⟩ := Option.map_eq_some_iff.1 htail
        simp only [Function.comp_apply] at hn
        exact List.forall_mem_cons.2 ⟨by simp, ih hforms hm (by omega)⟩
      next => cases htail

theorem source_append (forms later : Forms) :
    source (forms ++ later) = source forms ++ source later := List.flatMap_append

theorem take_source (forms : Forms) (k : Nat) :
    forms.source.take (forms.offset k) = source (forms.take k) := by
  rw [← List.take_append_drop k forms, source_append, List.take_append_drop]
  exact List.take_left

theorem offset_succ {forms : Forms} {k : Nat} (h : k < forms.length) :
    forms.offset (k + 1) = forms.offset k + forms[k].1.length := by
  rw [offset, List.take_succ_eq_append_getElem h, source_append, List.length_append, offset, source,
    source, List.flatMap_singleton]

/-- Every character takes some place. -/
theorem Valid.offset_lt {forms : Forms} (h : forms.Valid) {j k : Nat} (hjk : j < k)
    (hk : k ≤ forms.length) : forms.offset j < forms.offset k := by
  have hlt : j < forms.length := Nat.lt_of_lt_of_le hjk hk
  obtain ⟨d, rfl⟩ := Nat.exists_eq_add_of_lt hjk
  have hpos := List.length_pos_iff.2 (h _ (List.getElem_mem hlt)).ne_nil
  have htake : forms.take (j + d + 1) =
      forms.take j ++ forms[j] :: (forms.drop (j + 1)).take d := by
    rw [Nat.add_assoc, List.take_add, List.drop_eq_getElem_cons hlt, List.take_succ_cons]
  rw [offset, offset, htake, source_append, List.length_append, source, source, List.flatMap_cons,
    List.length_append]
  omega

theorem Valid.length_le {forms : Forms} (h : forms.Valid) : forms.length ≤ forms.source.length := by
  induction forms with
  | nil => exact Nat.le_refl _
  | cons form forms ih =>
    obtain ⟨hform, hforms⟩ := List.forall_mem_cons.1 h
    have := List.length_pos_iff.2 hform.ne_nil
    have hle : forms.length ≤ (source forms).length := ih hforms
    rw [source, List.flatMap_cons, List.length_append, List.length_cons, ← source]
    omega

theorem offset_length (forms : Forms) : forms.offset forms.length = forms.source.length := by
  rw [offset, List.take_length]

theorem offset_le (forms : Forms) (k : Nat) : forms.offset k ≤ forms.source.length := by
  rw [← forms.take_append_drop k, source_append, List.length_append, List.take_append_drop]
  exact Nat.le_add_right _ _

end Forms

namespace PlacedText

theorem positions_cons (c : CodePoint) (loc : Loc) (p : PlacedText) :
    (p.cons c loc).positions = loc :: p.positions := rfl

/-- The places of a text that stands in the source as it is. -/
theorem getElem?_positions_verbatim {t : Text} {k : Nat} (h : k ≤ t.length) (loc : Loc) :
    (verbatim t loc).positions[k]? = some (loc.advanceAll (t.take k)) := by
  induction t generalizing k loc with
  | nil =>
    obtain rfl : k = 0 := Nat.le_zero.1 h
    rfl
  | cons c t ih =>
    rw [verbatim, positions_cons]
    cases k with
    | zero => rfl
    | succ k => exact ih (Nat.le_of_succ_le_succ h) (loc.advance c)

theorem text_ofForms (forms : Forms) (loc : Loc) : (ofForms forms loc).text = forms.map (·.2) := by
  induction forms generalizing loc with
  | nil => rfl
  | cons form forms ih => rw [ofForms, text_cons, ih, List.map_cons]

/-- Every character stands where its form begins, and the end is behind all forms. -/
theorem positions_ofForms (forms : Forms) (loc : Loc) :
    (ofForms forms loc).positions = (List.range (forms.length + 1)).map fun k =>
      loc.advanceAll (forms.source.take (forms.offset k)) := by
  -- As the start of the list the forms are not cut apart, so the induction can take them one by
  -- one.
  simp only [Forms.take_source]
  induction forms generalizing loc with
  | nil => rfl
  | cons form forms ih =>
    rw [ofForms, positions_cons, ih, List.length_cons,
      List.range_succ_eq_map (n := forms.length + 1), List.map_cons, List.map_map]
    congr 1
    refine List.map_congr_left fun k _ => ?_
    rw [Function.comp_apply, List.take_succ_cons, Forms.source, Forms.source, List.flatMap_cons,
      Loc.advanceAll_append]

end PlacedText

end Splice
