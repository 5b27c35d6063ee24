import Splice.Body.Resolve
import Splice.Proofs.Lexing.Cutting
import Splice.Proofs.Literal.Encoding

/-!
# The places of a literal

Places of a source are ordered by line and column. The characters of an interpolated literal stand
in this order between its first letter and its closing quote, and so they do in a literal inside a
group of another one, whose places are moved to where the group stands.

* `Interpolation.Ordered`: the places of a literal rise.
* `Interpolation.writtenIn_of_token`: the characters of a literal of a source are placed where their
  written forms begin; so the literal is ordered.
* `Insertion.place_ofOffset`: where a place in a group's text is moved to.
* `Interpolation.Ordered.place`: so are literals inside the groups of an ordered one.
-/

namespace Splice

/-! ## Order of locations -/

namespace Loc

/-- One location is not behind another. -/
instance : LE Loc := ⟨fun a b => a.line < b.line ∨ a.line = b.line ∧ a.column ≤ b.column⟩

theorem le_def {a b : Loc} : a ≤ b ↔ a.line < b.line ∨ a.line = b.line ∧ a.column ≤ b.column :=
  Iff.rfl

protected theorem le_refl (a : Loc) : a ≤ a := .inr ⟨rfl, Int.le_refl _⟩

protected theorem le_trans {a b c : Loc} (h : a ≤ b) (h' : b ≤ c) : a ≤ c := by
  rw [le_def] at *
  omega

theorem le_advance (loc : Loc) (c : CodePoint) : loc ≤ loc.advance c := by
  unfold advance
  split
  · exact .inl (Int.lt_succ _)
  · exact .inr ⟨rfl, Int.le_of_lt (Int.lt_succ _)⟩

theorem le_advanceAll (loc : Loc) (t : Text) : loc ≤ loc.advanceAll t := by
  induction t generalizing loc with
  | nil => exact Loc.le_refl loc
  | cons c t ih => exact Loc.le_trans (loc.le_advance c) (ih _)

theorem line_le_advanceAll (loc : Loc) (t : Text) : loc.line ≤ (loc.advanceAll t).line := by
  rcases le_advanceAll loc t with h | h
  · exact Int.le_of_lt h
  · exact Int.le_of_eq h.1

/-- The place of the character at an offset of a source. -/
def ofOffset (source : Text) (offset : Nat) : Loc := start.advanceAll (source.take offset)

theorem ofOffset_append (before t : Text) {k : Nat} (h : k ≤ t.length) (rest : Text) :
    ofOffset (before ++ (t ++ rest)) (before.length + k) =
      (start.advanceAll before).advanceAll (t.take k) := by
  rw [ofOffset, List.take_length_add_append, List.take_append_of_le_length h, advanceAll_append]

/-- One location is before another. -/
instance : LT Loc := ⟨fun a b => a.line < b.line ∨ a.line = b.line ∧ a.column < b.column⟩

theorem lt_def {a b : Loc} : a < b ↔ a.line < b.line ∨ a.line = b.line ∧ a.column < b.column :=
  Iff.rfl

theorem lt_advance (loc : Loc) (c : CodePoint) : loc < loc.advance c := by
  unfold advance
  split
  · exact .inl (Int.lt_succ _)
  · exact .inr ⟨rfl, Int.lt_succ _⟩

theorem lt_of_lt_of_le {a b c : Loc} (h : a < b) (h' : b ≤ c) : a < c := by
  rw [lt_def] at *
  rw [le_def] at h'
  omega

theorem ofOffset_le (source : Text) {a b : Nat} (h : a ≤ b) :
    ofOffset source a ≤ ofOffset source b := by
  obtain ⟨d, rfl⟩ := Nat.exists_eq_add_of_le h
  rw [ofOffset, ofOffset, List.take_add, advanceAll_append]
  exact le_advanceAll _ _

theorem ofOffset_lt (source : Text) {a b : Nat} (h : a < b) (hb : b ≤ source.length) :
    ofOffset source a < ofOffset source b := by
  have ha : a < source.length := Nat.lt_of_lt_of_le h hb
  refine lt_of_lt_of_le ?_ (ofOffset_le source (Nat.succ_le_of_lt h))
  rw [ofOffset, ofOffset, List.take_succ_eq_append_getElem ha, advanceAll_append]
  exact lt_advance _ _

end Loc

/-! ## Literals laid out along a text -/

namespace Interpolation

/-- The places of a literal rise, from its first letter to its closing quote. -/
def Ordered (i : Interpolation) : Prop := (i.loc :: i.body.positions).Pairwise (· ≤ ·)

/-- The literal starts at an offset of a text, and its characters stand at rising offsets up to
`stop`. -/
def LaidOut (locate : Nat → Loc) (stop : Nat) (i : Interpolation) : Prop :=
  ∃ offset offsets, i.loc = locate offset ∧ i.body.positions = offsets.map locate ∧
    (offset :: offsets).Pairwise (· ≤ ·) ∧ ∀ o ∈ offset :: offsets, o ≤ stop

variable {i : Interpolation} {locate : Nat → Loc} {stop : Nat}

theorem LaidOut.ordered (h : i.LaidOut locate stop)
    (hrise : ∀ a b, a ≤ b → b ≤ stop → locate a ≤ locate b) : i.Ordered := by
  obtain ⟨offset, offsets, hloc, hpositions, hsorted, hstop⟩ := h
  rw [Ordered, hloc, hpositions, ← List.map_cons, List.pairwise_map]
  refine hsorted.imp_of_mem fun _ hb hab => ?_
  exact hrise _ _ hab (hstop _ hb)

theorem LaidOut.mapLoc (h : i.LaidOut locate stop) {f : Loc → Loc} {locate' : Nat → Loc}
    (hf : ∀ o, o ≤ stop → f (locate o) = locate' o) : (i.mapLoc f).LaidOut locate' stop := by
  obtain ⟨offset, offsets, hloc, hpositions, hsorted, hstop⟩ := h
  refine ⟨offset, offsets, ?_, ?_, hsorted, hstop⟩
  · rw [Interpolation.mapLoc, hloc, hf offset (hstop offset (by simp))]
  · rw [Interpolation.mapLoc, PlacedText.positions_map, hpositions, List.map_map]
    exact List.map_congr_left fun o ho => hf o (hstop o (by simp [ho]))

end Interpolation

/-! ## Literals of a source -/

/-- A token stands at its offset. -/
theorem Token.loc_eq_ofOffset {text : Text} {token : Token}
    (h : token ∈ (Lexed.ofText text).tokens) :
    token.offset ≤ text.length ∧ token.loc = Loc.ofOffset text token.offset := by
  obtain ⟨before, rest, rfl, hoffset, hloc, -⟩ := Lexed.standsIn_of_mem h
  refine ⟨?_, ?_⟩
  · rw [hoffset, List.length_append]
    exact Nat.le_add_right _ _
  · rw [hloc, hoffset, Loc.ofOffset, List.take_left]

/-- The place of a character of a token. -/
theorem Token.StandsIn.ofOffset {source : Text} {token : Token} (h : token.StandsIn source)
    {k : Nat} (hk : k ≤ token.text.length) :
    Loc.ofOffset source (token.offset + k) = token.loc.advanceAll (token.text.take k) := by
  obtain ⟨before, rest, rfl, hoffset, hloc, -⟩ := h
  rw [hoffset, hloc, Loc.ofOffset_append _ _ hk]

/-- What stands in front of the text between the quotes takes `width` columns. -/
def Token.OpensWith (token : Token) (width : Nat) : Prop :=
  ∀ loc : Loc, loc.advanceAll (token.text.take width) = loc.right width

/-- The place of a character between the quotes of a token, and of the second quote. -/
theorem Token.StandsIn.ofOffset_inner {source : Text} {token : Token} (h : token.StandsIn source)
    {width : Nat} (hopens : token.OpensWith width) (hwidth : width < token.text.length) {b : Nat}
    (hb : b ≤ (token.inner width).length) :
    Loc.ofOffset source (token.offset + (width + b)) =
      (token.loc.right width).advanceAll ((token.inner width).take b) := by
  rw [Token.inner, List.length_dropLast, List.length_drop] at hb
  have htake : token.text.take (width + b) =
      token.text.take width ++ (token.inner width).take b := by
    rw [List.take_add, Token.inner, List.dropLast_eq_take, List.take_take, List.length_drop,
      Nat.min_eq_left hb]
  rw [h.ofOffset (by omega), htake, Loc.advanceAll_append, hopens]

/-- A literal with escapes opens with its first quote, on the line of its first character. -/
theorem Token.StandsIn.opensWith {source : Text} {token : Token} (h : token.StandsIn source)
    {quote : CodePoint} {width : Nat} (hquotes : token.terminal.Quotes quote width) :
    token.OpensWith width := by
  obtain ⟨before, rest, -, -, -, hfirst⟩ := h
  obtain ⟨opening, inner, htext, rfl, hopening, hquote, -⟩ :=
    Lexeme.quoted_of_first? hquotes hfirst
  have htake : token.text.take (opening.length + 1) = opening ++ [quote] := by
    rw [htext, List.take_length_add_append]
    rfl
  have hline : ↑ '\n' ∉ opening ++ [quote] := by
    rw [List.mem_append, List.mem_singleton, not_or]
    exact ⟨hopening, hquote.symm⟩
  intro loc
  rw [htake, Loc.advanceAll_of_notMem hline, List.length_append]
  rfl

/-- An interpolated literal in a text is a letter and a text between quotes, which begins two
characters to the right. -/
theorem Token.StandsIn.interpolated {text : Text} {token : Token} (h : token.StandsIn text)
    (hkind : token.terminal = .interpolatedLit) :
    ∃ c : CodePoint, (c = 'i' ∨ c = 'f') ∧
      token.text = c :: ↑ '"' :: (token.inner 2 ++ (['"'] : Text)) ∧
      ∀ loc : Loc, loc.advanceAll [c, '"'] = loc.right 2 := by
  obtain ⟨before, rest, -, -, -, hfirst⟩ := h
  rw [hkind] at hfirst
  obtain ⟨c, inner, htoken, hc, htail⟩ := Lexeme.interpolated_of_first? hfirst
  obtain ⟨quoted, after, hinner, hlength⟩ := Quoted.eq_of_tail htail
  obtain ⟨rfl, -⟩ : inner = quoted ++ (['"'] : Text) ∧ rest = after := by
    rw [List.append_cons] at hinner
    exact List.append_inj hinner (by rw [hlength, List.length_append, List.length_singleton])
  have hquoted : token.inner 2 = quoted := by
    rw [Token.inner, htoken, List.drop_succ_cons, List.drop_succ_cons, List.drop_zero,
      List.dropLast_concat]
  refine ⟨c, hc, by rw [hquoted, htoken], fun loc => ?_⟩
  rcases hc with rfl | rfl <;> simp [Loc.advanceAll, Loc.advance, Loc.right, Int.add_assoc]

/-- A literal of some kind is written in a text at an offset, form by form between its quotes. -/
structure WrittenAt (text : Text) (offset : Nat) (kind : InterpolationKind) (forms : Forms) :
    Prop where
  valid : forms.Valid
  token : ∃ token ∈ (Lexed.ofText text).tokens, token.terminal = .interpolatedLit ∧
    token.offset = offset ∧ token.text = kind.letter :: ↑ '"' :: (forms.source ++ (['"'] : Text))
  stands : ∃ before after : Text, before.length = offset ∧
    text = before ++ kind.letter :: ↑ '"' :: (forms.source ++ ↑ '"' :: after)

theorem WrittenAt.offset_lt {text : Text} {offset : Nat} {kind : InterpolationKind} {forms : Forms}
    (h : WrittenAt text offset kind forms) (k : Nat) :
    offset + 2 + forms.offset k < text.length := by
  obtain ⟨before, after, rfl, rfl⟩ := h.stands
  have := forms.offset_le k
  simp only [List.length_append, List.length_cons]
  omega

/-- Inside a literal a quote takes two characters at least. -/
theorem WrittenAt.quote_lt {text : Text} {offset : Nat} {kind : InterpolationKind} {forms : Forms}
    (h : WrittenAt text offset kind forms) {k : Nat} (hk : (forms.map (·.2))[k]? = some ↑ '"') :
    forms.offset k + 1 < forms.offset (k + 1) := by
  obtain ⟨token, hmem, hkind, -, htoken⟩ := h.token
  obtain ⟨-, rest, -, -, -, hfirst⟩ := Lexed.standsIn_of_mem hmem
  rw [hkind] at hfirst
  obtain ⟨_, inner, hinner, -, htail⟩ := Lexeme.interpolated_of_first? hfirst
  obtain rfl : forms.source ++ (['"'] : Text) = inner :=
    (List.cons.inj (List.cons.inj (htoken.symm.trans hinner)).2).2
  rw [List.append_assoc, List.length_append] at htail
  have hquote := h.valid.ne_quote htail (Nat.lt_add_one _)
  rw [List.getElem?_map] at hk
  obtain ⟨form, hform, hchar⟩ := Option.map_eq_some_iff.1 hk
  obtain ⟨hlt, rfl⟩ := List.getElem?_eq_some_iff.1 hform
  have hmem := List.getElem_mem hlt
  rw [Forms.offset_succ hlt]
  obtain ⟨heq, -⟩ | ⟨x, more, heq, -⟩ := (h.valid _ hmem).eq_or
  · rw [hchar] at heq
    exact absurd heq (hquote _ hmem)
  · rw [heq, List.length_cons, List.length_cons]
    omega

namespace Interpolation

/-- A literal is written in a text at an offset, and its characters are placed where their forms
begin. -/
structure WrittenIn (text : Text) (offset : Nat) (forms : Forms) (i : Interpolation) : Prop where
  written : WrittenAt text offset i.kind forms
  text_eq : i.body.text = forms.map (·.2)
  loc_eq : i.loc = Loc.ofOffset text offset
  positions_eq : i.body.positions = (List.range (forms.length + 1)).map fun k =>
    Loc.ofOffset text (offset + 2 + forms.offset k)

/-- The literals of a text are written in it. -/
theorem writtenIn_of_token {text : Text} {token : Token} {i : Interpolation}
    (h : token ∈ (Lexed.ofText text).tokens) (hkind : token.terminal = .interpolatedLit)
    (hi : ofToken token = .ok i) : ∃ forms, i.WrittenIn text token.offset forms := by
  obtain ⟨before, rest, htext, hoffset, hloc, -⟩ := Lexed.standsIn_of_mem h
  obtain ⟨c, hc, htoken, hright⟩ := (Lexed.standsIn_of_mem h).interpolated hkind
  obtain ⟨hloc', hkind', hbody⟩ := ofToken_eq_ok.1 hi
  have hletter : i.kind.letter = c := by
    rw [hkind', Interpolation.kindOf, htoken]
    rcases hc with rfl | rfl <;> rfl
  obtain ⟨forms, hforms, hsource, hplaced⟩ := Escape.decode_eq_ok_iff.1 hbody
  rw [hsource] at htoken
  refine ⟨forms,
    ⟨⟨hforms, ⟨token, h, hkind, rfl, ?_⟩, ⟨before, rest, hoffset.symm, ?_⟩⟩, ?_, ?_, ?_⟩⟩
  · rw [htoken, hletter]
  · rw [htext, htoken, hletter]
    simp
  · rw [hplaced, PlacedText.text_ofForms]
  · exact hloc'.trans (Token.loc_eq_ofOffset h).2
  · rw [hplaced, PlacedText.positions_ofForms]
    refine List.map_congr_left fun k _ => ?_
    have hle : 2 + forms.offset k ≤ token.text.length := by
      have := forms.offset_le k
      rw [htoken]
      simp only [List.length_cons, List.length_append]
      omega
    rw [hoffset, htext, Nat.add_assoc, Loc.ofOffset_append _ _ hle, ← hloc, htoken, Nat.add_comm 2,
      List.take_succ_cons, List.take_succ_cons, List.take_append_of_le_length (forms.offset_le k),
      ← hright]
    rfl

theorem WrittenIn.length_eq {text : Text} {offset : Nat} {forms : Forms} {i : Interpolation}
    (h : i.WrittenIn text offset forms) : i.body.text.length = forms.length := by
  rw [h.text_eq, List.length_map]

/-- A literal of a text is laid out along it, and shorter than it. -/
theorem WrittenIn.laidOut {text : Text} {offset : Nat} {forms : Forms} {i : Interpolation}
    (h : i.WrittenIn text offset forms) :
    i.LaidOut (Loc.ofOffset text) text.length ∧ i.body.chars.length < text.length := by
  have hlt := h.written.offset_lt
  refine ⟨⟨offset, (List.range (forms.length + 1)).map (offset + 2 + forms.offset ·), h.loc_eq, ?_,
    List.pairwise_cons.2 ⟨?_, ?_⟩, ?_⟩, ?_⟩
  · rw [h.positions_eq, List.map_map]
    rfl
  · refine List.forall_mem_map.2 fun k _ => ?_
    omega
  · refine List.pairwise_map.2 (List.pairwise_lt_range.imp_of_mem fun {j k} _ hk hjk => ?_)
    have := h.written.valid.offset_lt hjk (Nat.le_of_lt_succ (List.mem_range.1 hk))
    omega
  · have := hlt 0
    refine List.forall_mem_cons.2 ⟨by omega, List.forall_mem_map.2 fun k _ => ?_⟩
    exact Nat.le_of_lt (hlt k)
  · have := hlt forms.length
    have := h.written.valid.length_le
    have hlength : i.body.chars.length = forms.length := by
      rw [← h.length_eq, PlacedText.text, List.length_map]
    rw [forms.offset_length] at *
    omega

end Interpolation

/-! ## Literals in groups -/

/-- The line of a place in a text starts where the place says. `line` is the start of the line
that the text begins in, and `next` the offset at which the text begins. -/
theorem lineStarts_getElem? {t : Text} {k line next : Nat} {loc : Loc} (hk : k ≤ t.length)
    (hcolumn : (line : Int) + loc.column = next + 1) :
    ∃ s : Nat, (line :: lineStarts next t)[((loc.advanceAll (t.take k)).line - loc.line).toNat]? =
      some s ∧ (s : Int) + (loc.advanceAll (t.take k)).column = next + k + 1 := by
  induction t generalizing k line next loc with
  | nil =>
    obtain rfl := Nat.le_zero.1 hk
    exact ⟨line, by simp [Loc.advanceAll], by simpa [Loc.advanceAll] using hcolumn⟩
  | cons c t ih =>
    cases k with
    | zero => exact ⟨line, by simp [Loc.advanceAll], by simpa [Loc.advanceAll] using hcolumn⟩
    | succ k =>
      have hk : k ≤ t.length := Nat.le_of_succ_le_succ hk
      rw [List.take_succ_cons, Loc.advanceAll, List.foldl_cons, ← Loc.advanceAll]
      -- Behind a line break the row of starts is one shorter, so the index goes down by one.
      by_cases hc : c = '\n'
      · have hloc : loc.advance c = ⟨loc.line + 1, 1⟩ := if_pos hc
        rw [hloc]
        obtain ⟨s, hs, hcolumn'⟩ := @ih k (next + 1) (next + 1) ⟨loc.line + 1, 1⟩ hk rfl
        have hline : loc.line + 1 ≤ (Loc.advanceAll ⟨loc.line + 1, 1⟩ (t.take k)).line :=
          Loc.line_le_advanceAll _ _
        have hindex : ((Loc.advanceAll ⟨loc.line + 1, 1⟩ (t.take k)).line - loc.line).toNat =
            ((Loc.advanceAll ⟨loc.line + 1, 1⟩ (t.take k)).line - (loc.line + 1)).toNat + 1 := by
          omega
        refine ⟨s, ?_, by omega⟩
        rw [lineStarts, if_pos hc, hindex, List.getElem?_cons_succ]
        exact hs
      · have hloc : loc.advance c = ⟨loc.line, loc.column + 1⟩ := if_neg hc
        have hcolumn : (line : Int) + (loc.column + 1) = (next + 1 : Nat) + 1 := by omega
        rw [hloc]
        obtain ⟨s, hs, hcolumn'⟩ := @ih k line (next + 1) ⟨loc.line, loc.column + 1⟩ hk hcolumn
        refine ⟨s, ?_, by omega⟩
        rw [lineStarts, if_neg hc]
        exact hs

namespace Insertion

/-- A place in the text of a group is moved to where the body has the character. -/
theorem place_ofOffset {raw : Text} {k : Nat} (hk : k ≤ raw.length) (start : Nat)
    (locate : Locate) :
    place raw start locate (Loc.ofOffset raw k) = locate (start + 2 + k : Nat) := by
  obtain ⟨s, hs, hcolumn⟩ := @lineStarts_getElem? raw k 0 0 .start hk (by simp [Loc.start])
  have hline : 1 ≤ (Loc.start.advanceAll (raw.take k)).line := Loc.line_le_advanceAll .start _
  rw [place, Loc.ofOffset, if_pos hline]
  generalize Loc.start.advanceAll (raw.take k) = loc at hs hcolumn
  have hs : (0 :: lineStarts 0 raw)[(loc.line - 1).toNat]? = some s := hs
  rw [hs]
  have hoffset : (start : Int) + 2 + s + loc.column - 1 = (start + 2 + k : Nat) := by omega
  exact congrArg locate hoffset

end Insertion

theorem PlacedText.getElem?_positions (p : PlacedText) (offset : Int) :
    p.positions[min offset.toNat p.chars.length]? = some (p.locate offset) := by
  unfold positions locate
  by_cases h : offset.toNat < p.chars.length
  · rw [Nat.min_eq_left (Nat.le_of_lt h), List.getElem?_append_left (by simp [h])]
    simp [h]
  · have h := Nat.le_of_not_lt h
    rw [Nat.min_eq_right h, List.getElem?_append_right (by simp), List.getElem?_eq_none h]
    simp

namespace Interpolation

variable {i : Interpolation}

/-- Every place in an ordered literal is between its first letter and its closing quote. -/
theorem Ordered.locate_within (h : i.Ordered) (offset : Int) :
    i.loc ≤ i.body.locate offset ∧ i.body.locate offset ≤ i.body.stop := by
  obtain ⟨hfirst, hsorted⟩ := List.pairwise_cons.1 h
  have hmem := List.mem_of_getElem? (i.body.getElem?_positions offset)
  refine ⟨hfirst _ hmem, ?_⟩
  rw [PlacedText.positions, List.mem_append, List.mem_singleton] at hmem
  rcases hmem with hmem | heq
  · exact (List.pairwise_append.1 hsorted).2.2 _ hmem _ (by simp)
  · rw [heq]
    exact Loc.le_refl _

theorem Ordered.locate_le (h : i.Ordered) {a b : Nat} (hab : a ≤ b) :
    i.body.locate a ≤ i.body.locate b := by
  have hsorted := (List.pairwise_cons.1 h).2
  obtain ⟨ha, hplace⟩ := List.getElem?_eq_some_iff.1 (i.body.getElem?_positions a)
  obtain ⟨hb, hplace'⟩ := List.getElem?_eq_some_iff.1 (i.body.getElem?_positions b)
  rw [← hplace, ← hplace']
  rcases Nat.eq_or_lt_of_le (show min (a : Int).toNat i.body.chars.length ≤
    min (b : Int).toNat i.body.chars.length by omega) with heq | hlt
  · simp only [heq]
    exact Loc.le_refl _
  · exact List.pairwise_iff_getElem.1 hsorted _ _ ha hb hlt

theorem ordered_of_laidOut_source {source : Text}
    (h : i.LaidOut (Loc.ofOffset source) source.length) : i.Ordered :=
  h.ordered fun _ _ hab _ => Loc.ofOffset_le source hab

/-- A literal in the text of a group, moved to where the group stands in an ordered literal, is
ordered. -/
theorem Ordered.place (h : i.Ordered) {raw : Text} {inner : Interpolation}
    (hinner : inner.LaidOut (Loc.ofOffset raw) raw.length) (start : Nat) :
    (inner.mapLoc (Insertion.place raw start i.body.locate)).Ordered := by
  have hmoved := hinner.mapLoc fun o ho => Insertion.place_ofOffset ho start i.body.locate
  exact hmoved.ordered fun a b hab _ => h.locate_le (Nat.add_le_add_left hab _)

end Interpolation

end Splice
