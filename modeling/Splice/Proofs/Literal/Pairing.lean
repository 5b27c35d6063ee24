import Mathlib.Logic.Relation
import Splice.Proofs.Literal.Places

/-!
# Backslashes are paired alike

The lexer finds the end of a literal two characters at a time where there is a backslash. The
decoder takes two, four or any number of characters for an escape. Still, whenever the decoder is
done with an escape or a character, it stands where an item of the lexer begins, so both pair the
same backslashes with what follows them, and the decoder never meets one at the end of a literal.

* `IsLexedItem`: the items of the lexer; `Token.StandsIn.exists_items`: a literal is a row of them.
* `Escape.Step`, `Escape.Reaches`: the decoder on its way through a literal.
* `Escape.decodeFrom_eq_error_iff`: decoding fails where the decoder comes to a fault.
* `Escape.InStep.step`, `Escape.InStep.reaches`: a step keeps the decoder beside the lexer, and so
  does the whole way.
* `Token.decoder_inStep`: both together, for every token of a source.
-/

namespace Splice

/-! ## The items of the lexer -/

/-- What the lexer takes of a literal at a time: a backslash with the character behind it, or any
other character but the quote. -/
inductive IsLexedItem (quote : CodePoint) : Text → Prop
  | escape {c : CodePoint} (h : c ≠ '\n') : IsLexedItem quote ['\\', c]
  | character {c : CodePoint} (hquote : c ≠ quote) (hslash : c ≠ '\\') : IsLexedItem quote [c]

theorem Quoted.exists_items {quote : CodePoint} {t : Text} {n : Nat}
    (h : tail Lexeme.isEscapable quote t = some n) :
    ∃ (items : List Text) (later : Text), (∀ w ∈ items, IsLexedItem quote w) ∧
      t = items.flatten ++ quote :: later ∧ n = items.flatten.length + 1 := by
  fun_induction tail Lexeme.isEscapable quote t generalizing n with
  | case1 => cases h
  | case2 => cases h
  | case3 c rest hc ih =>
    obtain ⟨m, hm, rfl⟩ := Option.map_eq_some_iff.1 h
    obtain ⟨items, later, hitems, rfl, rfl⟩ := ih hm
    refine ⟨['\\', c] :: items, later, ?_, rfl, rfl⟩
    exact List.forall_mem_cons.2 ⟨.escape (of_decide_eq_true hc), hitems⟩
  | case4 => cases h
  | case5 rest =>
    cases h
    exact ⟨[], rest, List.forall_mem_nil _, rfl, rfl⟩
  | case6 c rest hnil hcons hquote ih =>
    obtain ⟨m, hm, rfl⟩ := Option.map_eq_some_iff.1 h
    obtain ⟨items, later, hitems, rfl, rfl⟩ := ih hm
    refine ⟨[c] :: items, later, ?_, rfl, rfl⟩
    exact List.forall_mem_cons.2 ⟨.character hquote (ne_backslash hnil hcons), hitems⟩

/-- A literal with escapes is a row of items between two quotes. -/
theorem Token.StandsIn.exists_items {source : Text} {token : Token} (h : token.StandsIn source)
    {quote : CodePoint} {width : Nat} (hquotes : token.terminal.Quotes quote width) :
    ∃ (opening : Text) (items : List Text), opening.length + 1 = width ∧
      token.text = opening ++ quote :: (items.flatten ++ [quote]) ∧
      token.inner width = items.flatten ∧ ∀ w ∈ items, IsLexedItem quote w := by
  obtain ⟨before, rest, -, -, -, hfirst⟩ := h
  obtain ⟨opening, inner, htext, rfl, -, -, htail⟩ := Lexeme.quoted_of_first? hquotes hfirst
  obtain ⟨items, later, hitems, hinner, hlength⟩ := Quoted.exists_items htail
  obtain ⟨rfl, -⟩ : inner = items.flatten ++ [quote] ∧ rest = later := by
    rw [List.append_cons] at hinner
    exact List.append_inj hinner (by rw [hlength, List.length_append, List.length_singleton])
  refine ⟨opening, items, rfl, htext, ?_, hitems⟩
  rw [inner, htext, List.append_cons, ← List.length_singleton (a := quote), ← List.length_append,
    List.drop_left, List.dropLast_concat]

section Items

variable {quote c : CodePoint} {items : List Text} {t : Text}

/-- A row of items that begins with a backslash begins with its pair. -/
theorem exists_escape_of_flatten (h : ∀ w ∈ items, IsLexedItem quote w)
    (heq : items.flatten = ↑ '\\' :: t) :
    ∃ (c : CodePoint) (later : List Text),
      items = [↑ '\\', c] :: later ∧ t = c :: later.flatten := by
  cases items with
  | nil => cases heq
  | cons w later =>
    cases (List.forall_mem_cons.1 h).1 with
    | @escape c _ => exact ⟨c, later, rfl, (List.cons.inj heq).2.symm⟩
    | character _ hslash => exact absurd (List.cons.inj heq).1 hslash

/-- A row of items that begins with another character begins with this character alone. -/
theorem exists_character_of_flatten (h : ∀ w ∈ items, IsLexedItem quote w)
    (heq : items.flatten = c :: t) (hc : c ≠ '\\') :
    ∃ later, items = [c] :: later ∧ t = later.flatten := by
  cases items with
  | nil => cases heq
  | cons w later =>
    cases (List.forall_mem_cons.1 h).1 with
    | escape => exact absurd (List.cons.inj heq).1.symm hc
    | character =>
      obtain ⟨rfl, rfl⟩ := List.cons.inj heq
      exact ⟨later, rfl, rfl⟩

/-- Characters that are no backslashes are items of their own. -/
theorem exists_later_of_flatten (h : ∀ w ∈ items, IsLexedItem quote w) {more : Text}
    (hmore : ∀ y ∈ more, y ≠ '\\') (heq : items.flatten = more ++ t) :
    ∃ front back, items = front ++ back ∧ t = back.flatten := by
  induction more generalizing items with
  | nil => exact ⟨[], items, rfl, heq.symm⟩
  | cons y more ih =>
    obtain ⟨hy, hmore⟩ := List.forall_mem_cons.1 hmore
    obtain ⟨later, rfl, hlater⟩ := exists_character_of_flatten h heq hy
    obtain ⟨front, back, rfl, ht⟩ := ih (List.forall_mem_cons.1 h).2 hmore hlater.symm
    exact ⟨[y] :: front, back, rfl, ht⟩

end Items

/-! ## The steps of the decoder -/

/-- A fault over the character behind a backslash. -/
def EscapeFault.IsOver : EscapeFault → CodePoint → Prop
  | dangling, _ => False
  | badByte, c => c = 'x'
  | badCodePoint, c => c = 'u'
  | unknown d, c => c = d

namespace Escape

theorem isOver_of_read {c : CodePoint} {rest : Text} {fault : EscapeFault}
    (h : read (c :: rest) = .error fault) : fault.IsOver c := by
  unfold read at h
  split at h
  next heq => cases heq
  next heq =>
    cases heq
    split at h
    next =>
      split at h
      next => cases h
      next => cases h; rfl
    next => cases h; rfl
  next heq =>
    cases heq
    split at h
    next =>
      dsimp only at h
      split at h
      next => cases h; rfl
      next =>
        split at h
        next =>
          split at h
          next => cases h
          next => cases h; rfl
        next => cases h; rfl
    next => cases h; rfl
  next heq =>
    cases heq
    split at h <;> cases h
    rfl

/-- The decoder on its way through a literal: what it has not passed yet, how many characters of
this belong to an escape that was read already, and where it stands. -/
structure Cursor where
  rest : Text
  pending : Nat
  loc : Loc

/-- What the decoder makes of the rest. -/
def Cursor.result (cursor : Cursor) : Except (EscapeFault × Loc) PlacedText :=
  decodeFrom cursor.rest cursor.pending cursor.loc

/-- The decoder passes one character. -/
inductive Step : Cursor → Cursor → Prop
  | pending {c : CodePoint} {rest : Text} {pending : Nat} {loc : Loc} :
    Step ⟨c :: rest, pending + 1, loc⟩ ⟨rest, pending, loc.advance c⟩
  | character {c : CodePoint} {rest : Text} {loc : Loc} (h : c ≠ '\\') :
    Step ⟨c :: rest, 0, loc⟩ ⟨rest, 0, loc.advance c⟩
  | escape {rest : Text} {loc : Loc} {named : CodePoint} {width : Nat}
    (h : read rest = .ok (named, width)) :
    Step ⟨'\\' :: rest, 0, loc⟩ ⟨rest, width - 1, loc.advance '\\'⟩

/-- The decoder comes from one place to the other. -/
abbrev Reaches : Cursor → Cursor → Prop := Relation.ReflTransGen Step

section Run

variable {t : Text} {pending : Nat} {loc place : Loc} {fault : EscapeFault}
  {cursor cursor' : Cursor}

theorem Step.result_eq_error (h : Step cursor cursor')
    (herror : cursor'.result = .error (fault, place)) : cursor.result = .error (fault, place) := by
  unfold Cursor.result at herror ⊢
  cases h with
  | pending => exact herror
  | character hc =>
    rw [decodeFrom, if_neg hc]
    exact congrArg (Except.map _) herror
  | escape hread =>
    rw [decodeFrom, if_pos rfl, hread]
    exact congrArg (Except.map _) herror

theorem Reaches.result_eq_error (h : Reaches cursor cursor')
    (herror : cursor'.result = .error (fault, place)) : cursor.result = .error (fault, place) := by
  induction h using Relation.ReflTransGen.head_induction_on with
  | refl => exact herror
  | head hstep _ ih => exact hstep.result_eq_error ih

/-- Decoding fails where the decoder comes to a backslash that begins no escape. -/
theorem decodeFrom_eq_error_iff : decodeFrom t pending loc = .error (fault, place) ↔
    ∃ later, Reaches ⟨t, pending, loc⟩ ⟨'\\' :: later, 0, place⟩ ∧ read later = .error fault := by
  constructor
  -- The decoder goes from character to character, so the induction is on the text, with the place
  -- and what is pending arbitrary.
  · intro h
    induction t generalizing pending loc with
    | nil => cases pending <;> cases h
    | cons c rest ih =>
      cases pending with
      | succ pending =>
        obtain ⟨later, hreaches, hread⟩ := ih h
        exact ⟨later, .head .pending hreaches, hread⟩
      | zero =>
        by_cases hc : c = '\\'
        · subst hc
          rw [decodeFrom, if_pos rfl] at h
          split at h
          next named width hread =>
            obtain ⟨later, hreaches, hlater⟩ := ih (of_map_eq_error h)
            exact ⟨later, .head (.escape hread) hreaches, hlater⟩
          next hread =>
            cases h
            exact ⟨rest, .refl, hread⟩
        · rw [decodeFrom, if_neg hc] at h
          obtain ⟨later, hreaches, hread⟩ := ih (of_map_eq_error h)
          exact ⟨later, .head (.character hc) hreaches, hread⟩
  · rintro ⟨later, hreaches, hread⟩
    refine Reaches.result_eq_error hreaches ?_
    rw [Cursor.result, decodeFrom, if_pos rfl, hread]

end Run

/-! ## Side by side -/

/-- The decoder and the lexer go through a row of items side by side. -/
structure InStep (items : List Text) (start : Loc) (cursor : Cursor) : Prop where
  /-- The decoder stands behind what it has passed. -/
  place : ∃ passed, items.flatten = passed ++ cursor.rest ∧ cursor.loc = start.advanceAll passed
  /-- Behind the escape that the decoder is in, an item of the lexer begins. -/
  boundary : ∃ front back, items = front ++ back ∧ cursor.rest.drop cursor.pending = back.flatten

variable {quote : CodePoint} {items : List Text} {start : Loc} {cursor cursor' : Cursor}

/-- A step keeps the decoder beside the lexer. -/
theorem InStep.step (hitems : ∀ w ∈ items, IsLexedItem quote w) (h : InStep items start cursor)
    (hstep : Step cursor cursor') : InStep items start cursor' := by
  obtain ⟨⟨passed, hpassed, hloc⟩, front, back, rfl, hback⟩ := h
  have hbackItems : ∀ w ∈ back, IsLexedItem quote w := fun w hw =>
    hitems w (List.mem_append_right _ hw)
  have hplace (c : CodePoint) : cursor.loc.advance c = start.advanceAll (passed ++ [c]) := by
    rw [hloc, Loc.advanceAll_append]
    rfl
  -- Inside an escape the next item stays where it is. Otherwise an item ends with the step, and
  -- for an escape more items may have to end inside it.
  cases hstep with
  | @pending c rest pending loc =>
    exact ⟨⟨passed ++ [c], by rw [hpassed, List.append_cons], hplace c⟩, front, back, rfl, hback⟩
  | @character c rest loc hc =>
    refine ⟨⟨passed ++ [c], by rw [hpassed, List.append_cons], hplace c⟩, ?_⟩
    obtain ⟨later, rfl, hlater⟩ := exists_character_of_flatten hbackItems hback.symm hc
    exact ⟨front ++ [[c]], later, by simp, hlater⟩
  | @escape rest loc named width hread =>
    refine ⟨⟨passed ++ (['\\'] : Text), by rw [hpassed, List.append_cons], hplace '\\'⟩, ?_⟩
    obtain ⟨c, later, rfl, hlater⟩ := exists_escape_of_flatten hbackItems hback.symm
    obtain ⟨l, behind, rfl, rfl, hform⟩ := isForm_of_read hread
    obtain ⟨heq, hne⟩ | ⟨x, more, heq, hmore⟩ := hform.eq_or
    -- A form that begins with a backslash is not the backslash itself.
    · exact absurd (List.cons.inj heq).1.symm hne
    -- Behind its pair, the escape goes on with characters that are items of their own.
    · obtain rfl : l = x :: more := (List.cons.inj heq).2
      obtain ⟨-, hlater⟩ := List.cons.inj hlater
      obtain ⟨digits, back, rfl, hbehind⟩ := exists_later_of_flatten
        (List.forall_mem_cons.1 hbackItems).2 (fun y hy => (hmore y hy).1) hlater.symm
      refine ⟨front ++ (['\\', c] : Text) :: digits, back, by simp, ?_⟩
      rw [Nat.add_sub_cancel, List.drop_left]
      exact hbehind

/-- So does the whole way. -/
theorem InStep.reaches (hitems : ∀ w ∈ items, IsLexedItem quote w) (h : InStep items start cursor)
    (hreaches : Reaches cursor cursor') : InStep items start cursor' := by
  induction hreaches with
  | refl => exact h
  | tail _ hstep ih => exact ih.step hitems hstep

/-- Where the decoder is in no escape, it stands between two items of the lexer. -/
theorem InStep.exists_split {rest : Text} {loc : Loc} (h : InStep items start ⟨rest, 0, loc⟩) :
    ∃ front back, items = front ++ back ∧ rest = back.flatten ∧
      loc = start.advanceAll front.flatten := by
  obtain ⟨⟨passed, hpassed, hloc⟩, front, back, rfl, hback⟩ := h
  obtain rfl : rest = back.flatten := hback
  rw [List.flatten_append] at hpassed
  obtain rfl := List.append_cancel_right hpassed
  exact ⟨front, back, rfl, rfl, hloc⟩

end Escape

/-! ## The tokens of a source -/

/-- Decoding a literal of a source goes from item to item of the lexer: whenever the decoder is in
no escape, it stands between two of them. So where it fails, it stands before the pair of a
backslash and a character that begins no escape with it, and never before a single backslash. -/
theorem Token.decoder_inStep {source : Text} {token : Token} {quote : CodePoint} {width : Nat}
    (h : token ∈ (Lexed.ofText source).tokens) (hquotes : token.terminal.Quotes quote width) :
    ∃ items : List Text, (∀ w ∈ items, IsLexedItem quote w) ∧
      (∃ opening, opening.length + 1 = width ∧
        token.text = opening ++ quote :: (items.flatten ++ [quote])) ∧
      token.inner width = items.flatten ∧
      (∀ rest loc, Escape.Reaches ⟨token.inner width, 0, token.loc.right width⟩ ⟨rest, 0, loc⟩ →
        ∃ front back, items = front ++ back ∧ rest = back.flatten ∧
          loc = Loc.ofOffset source (token.offset + (width + front.flatten.length))) ∧
      ∀ fault loc,
        Escape.decode (token.inner width) (token.loc.right width) = .error (fault, loc) →
        ∃ front c back, items = front ++ (['\\', c] : Text) :: back ∧ fault.IsOver c ∧
          source[token.offset + (width + front.flatten.length)]? = some ↑ '\\' ∧
          loc = Loc.ofOffset source (token.offset + (width + front.flatten.length)) := by
  have hstands := Lexed.standsIn_of_mem h
  obtain ⟨opening, items, hwidth, htext, hinner, hitems⟩ := hstands.exists_items hquotes
  -- At the start of the body nothing is passed and no item is behind the decoder.
  have hstart : Escape.InStep items (token.loc.right width)
      ⟨token.inner width, 0, token.loc.right width⟩ :=
    ⟨⟨[], hinner.symm, rfl⟩, [], items, rfl, hinner⟩
  have hway (rest : Text) (loc : Loc)
      (hreaches : Escape.Reaches ⟨token.inner width, 0, token.loc.right width⟩ ⟨rest, 0, loc⟩) :
      ∃ front back, items = front ++ back ∧ rest = back.flatten ∧
        loc = Loc.ofOffset source (token.offset + (width + front.flatten.length)) := by
    obtain ⟨front, back, rfl, hrest, hloc⟩ := (hstart.reaches hitems hreaches).exists_split
    refine ⟨front, back, rfl, hrest, ?_⟩
    have hlt : width < token.text.length := by
      rw [htext, List.length_append, List.length_cons, List.length_append, List.length_singleton]
      omega
    -- What has been passed is the items in front, so the place is that of the next item in the
    -- source.
    rw [hstands.ofOffset_inner (hstands.opensWith hquotes) hlt (by simp [hinner]), hinner,
      List.flatten_append, List.take_left]
    exact hloc
  refine ⟨items, hitems, ⟨opening, hwidth, htext⟩, hinner, hway, fun fault loc herror => ?_⟩
  obtain ⟨later, hreaches, hread⟩ := Escape.decodeFrom_eq_error_iff.1 herror
  obtain ⟨front, back, rfl, hback, hloc⟩ := hway _ _ hreaches
  -- The decoder stands at a backslash, so the item that begins there is a pair.
  obtain ⟨c, behind, rfl, rfl⟩ := exists_escape_of_flatten
    (fun w hw => hitems w (List.mem_append_right _ hw)) hback.symm
  refine ⟨front, c, behind, rfl, Escape.isOver_of_read hread, ?_, hloc⟩
  -- The pair's offset is counted from the start of the source: the text before the token, its
  -- opening, and the items.
  obtain ⟨before, rest, rfl, hoffset, -, -⟩ := hstands
  have hsource : before ++ (token.text ++ rest) =
      before ++ (opening ++ quote :: front.flatten) ++
        ↑ '\\' :: (c :: (behind.flatten ++ [quote]) ++ rest) := by
    simp [htext]
  have hlength : token.offset + (width + front.flatten.length) =
      (before ++ (opening ++ quote :: front.flatten)).length := by
    simp only [List.length_append, List.length_cons, hoffset, ← hwidth]
    omega
  rw [hsource, hlength, List.getElem?_append_right (Nat.le_refl _), Nat.sub_self]
  rfl

/-- A literal behind a name, whose last pair is the fault. -/
theorem Token.decoder_inStep_unknown :
    let source : Text := ['x', ' ', 'i', '"', '\\', '\\', '\\', 'u', '{', '4', '1', '}', '\\', '"',
      '\\', 'q', '"']
    let token : Token := ⟨.interpolatedLit, source.drop 2, 2, ⟨1, 3⟩⟩
    (token ∈ (Lexed.ofText source).tokens ∧ token.terminal.Quotes '"' 2) ∧
      Escape.decode (token.inner 2) (token.loc.right 2) = .error (.unknown 'q', ⟨1, 15⟩) ∧
      ∃ front back : List Text, token.inner 2 = (front ++ (['\\', 'q'] : Text) :: back).flatten ∧
        Loc.ofOffset source (4 + front.flatten.length) = ⟨1, 15⟩ := by
  intro source token
  have htoken : token ∈ (Lexed.ofText source).tokens := by decide
  have hquotes : token.terminal.Quotes '"' 2 := .interpolated
  have hfault : Escape.decode (token.inner 2) (token.loc.right 2) =
      .error (.unknown 'q', ⟨1, 15⟩) := by rfl
  obtain ⟨items, -, -, hinner, -, hfaults⟩ := Token.decoder_inStep htoken hquotes
  obtain ⟨front, c, back, rfl, hover, -, hloc⟩ := hfaults _ _ hfault
  obtain rfl : c = 'q' := hover
  refine ⟨⟨htoken, hquotes⟩, hfault, front, back, hinner, ?_⟩
  rw [hloc]
  exact congrArg _ (Nat.add_assoc 2 2 _)

end Splice
