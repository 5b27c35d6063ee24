import Mathlib.Data.Nat.Digits.Lemmas
import Splice.Proofs.Literal.Encoding

/-!
# Items of a literal

The text between the quotes of a literal is a row of items: a character that is no backslash, or
an escape. A text is such a row in at most one way, and where it is none, there is a first
backslash that begins no escape.

* `IsItem`: the items, each with the character it stands for.
* `isForm_iff_isItem`: the items are the written forms.
* `Forms.Valid.prefix_or`: of two rows that begin one text, one begins the other.
* `Escape.decode_exact`: decoding takes a text apart into its items, or is rejected at the first
  backslash that begins none.
-/

namespace Splice

/-- A digit of base sixteen, in either case, with its value. -/
def IsHexDigit (c : CodePoint) (v : Nat) : Prop :=
  ("0123456789abcdef" : Text)[v]? = some c ∨ ("0123456789ABCDEF" : Text)[v]? = some c

/-- The digits write a number in base sixteen, with the highest digit in front. -/
def IsHexNumber (digits : Text) (n : Nat) : Prop :=
  ∃ values : List Nat, List.Forall₂ IsHexDigit digits values ∧ n = Nat.ofDigits 16 values.reverse

/-- The items of a literal, each with the character it stands for. -/
inductive IsItem : Text → CodePoint → Prop
  | character {c : CodePoint} (h : c ≠ '\\') : IsItem [c] c
  | lineFeed : IsItem ['\\', 'n'] '\n'
  | tab : IsItem ['\\', 't'] '\t'
  | carriageReturn : IsItem ['\\', 'r'] '\r'
  | null : IsItem ['\\', '0'] '\x00'
  | backslash : IsItem ['\\', '\\'] '\\'
  | quote : IsItem ['\\', '"'] '"'
  | apostrophe : IsItem ['\\', '\''] '\''
  | byte {high low c : CodePoint} {n : Nat} (h : IsHexNumber [high, low] n) (hc : c.toNat = n) :
    IsItem ['\\', 'x', high, low] c
  /-- Every number up to `U+10FFFF`, those of the surrogates included. -/
  | codePoint {digits : Text} {c : CodePoint} {n : Nat} (hdigits : digits ≠ [])
    (h : IsHexNumber digits n) (hn : n ≤ 0x10ffff) (hc : c.toNat = n) :
    IsItem ('\\' :: 'u' :: '{' :: (digits ++ (['}'] : Text))) c

/-- The row of items that a text consists of. -/
def IsItemised (raw : Text) (items : Forms) : Prop :=
  (∀ item ∈ items, IsItem item.1 item.2) ∧ items.source = raw

/-- The text in front of `b` is a row of items, and at `b` stands a backslash that begins none. -/
def IsFaultAt (raw : Text) (b : Nat) : Prop :=
  (∃ items, IsItemised (raw.take b) items) ∧ raw[b]? = some ↑ '\\' ∧
    ∀ w c, IsItem w c → ¬ w <+: raw.drop b

/-! ## Items are written forms -/

theorem hexValue?_eq_some_iff {c : CodePoint} {v : Nat} :
    hexValue? c = some v ↔ IsHexDigit c v := by
  constructor
  · intro h
    obtain ⟨n, hn⟩ : ∃ n, c.toNat = n := ⟨_, rfl⟩
    have hc : c = .ofNat n := CodePoint.eq_ofNat hn
    simp only [hexValue?, hn] at h
    subst hc
    unfold IsHexDigit
    split_ifs at h with hdigit hupper hlower
    · cases h
      obtain ⟨hfrom, hto⟩ := hdigit
      interval_cases n <;> decide
    · cases h
      obtain ⟨hfrom, hto⟩ := hupper
      interval_cases n <;> decide
    · cases h
      obtain ⟨hfrom, hto⟩ := hlower
      interval_cases n <;> decide
  · have htable : ∀ v < 16, ("0123456789abcdef" : Text)[v]?.bind hexValue? = some v ∧
        ("0123456789ABCDEF" : Text)[v]?.bind hexValue? = some v := by
      decide +kernel
    intro h
    rcases h with h | h
    · have hvalue := (htable v (List.getElem?_eq_some_iff.1 h).1).1
      rwa [h] at hvalue
    · have hvalue := (htable v (List.getElem?_eq_some_iff.1 h).1).2
      rwa [h] at hvalue

theorem hexNumber?_eq_some_iff {digits : Text} {n : Nat} :
    hexNumber? digits = some n ↔ IsHexNumber digits n := by
  -- The digits before are worth `start`.
  have hfold (digits : Text) (start n : Nat) :
      digits.foldlM (fun n c => (hexValue? c).map (n * 16 + ·)) start = some n ↔
        ∃ values : List Nat, List.Forall₂ IsHexDigit digits values ∧
          n = start * 16 ^ digits.length + Nat.ofDigits 16 values.reverse := by
    induction digits generalizing start with
    | nil => simp [eq_comm]
    | cons c digits ih =>
      have hstep (v : Nat) (values : List Nat) (hlength : digits.length = values.length) :
          (start * 16 + v) * 16 ^ digits.length + Nat.ofDigits 16 values.reverse =
            start * 16 ^ (c :: digits).length + Nat.ofDigits 16 (v :: values).reverse := by
        rw [List.reverse_cons, Nat.ofDigits_append, Nat.ofDigits_singleton, List.length_reverse,
          ← hlength, List.length_cons]
        ring
      simp only [List.foldlM_cons, Option.bind_eq_bind, Option.bind_eq_some_iff,
        Option.map_eq_some_iff, hexValue?_eq_some_iff, ih, List.forall₂_cons_left_iff]
      constructor
      · rintro ⟨_, ⟨v, hv, rfl⟩, values, hvalues, rfl⟩
        exact ⟨v :: values, ⟨v, values, hv, hvalues, rfl⟩, hstep v values hvalues.length_eq⟩
      · rintro ⟨_, ⟨v, values, hv, hvalues, rfl⟩, rfl⟩
        exact ⟨_, ⟨v, hv, rfl⟩, values, hvalues, (hstep v values hvalues.length_eq).symm⟩
  have hzero := hfold digits 0 n
  simp only [Nat.zero_mul, Nat.zero_add] at hzero
  exact hzero

/-- Two digits write no more than a byte. -/
theorem lt_of_hexNumber? {high low : CodePoint} {n : Nat} (h : hexNumber? [high, low] = some n) :
    n < 0x100 := by
  have hlt {c : CodePoint} {v : Nat} (h : hexValue? c = some v) : v < 16 := by
    simp only [hexValue?] at h
    split_ifs at h <;> cases h <;> omega
  obtain ⟨m, hm, h⟩ := Option.bind_eq_some_iff.1 h
  obtain ⟨v, hv, rfl⟩ := Option.map_eq_some_iff.1 hm
  obtain ⟨n', hn', h⟩ := Option.bind_eq_some_iff.1 h
  obtain ⟨v', hv', rfl⟩ := Option.map_eq_some_iff.1 hn'
  cases h
  have := hlt hv
  have := hlt hv'
  omega

theorem isForm_iff_isItem {w : Text} {c : CodePoint} : IsForm w c ↔ IsItem w c := by
  constructor
  · intro h
    cases h with
    | plain h => exact .character h
    | letter h =>
      simp only [Escape.simple, List.mem_cons, Prod.mk.injEq, List.not_mem_nil, or_false] at h
      rcases h with ⟨rfl, rfl⟩ | ⟨rfl, rfl⟩ | ⟨rfl, rfl⟩ | ⟨rfl, rfl⟩ | ⟨rfl, rfl⟩ | ⟨rfl, rfl⟩ |
        ⟨rfl, rfl⟩ <;> constructor
    | byte h =>
      have hlt := lt_of_hexNumber? h
      exact .byte (hexNumber?_eq_some_iff.1 h) (CodePoint.toNat_ofNat (by omega))
    | codePoint hdigits h hn =>
      exact .codePoint hdigits (hexNumber?_eq_some_iff.1 h) hn (CodePoint.toNat_ofNat hn)
  · intro h
    cases h with
    | character h => exact .plain h
    | byte h hc =>
      rw [CodePoint.eq_ofNat hc]
      exact .byte (hexNumber?_eq_some_iff.2 h)
    | codePoint hdigits h hn hc =>
      rw [CodePoint.eq_ofNat hc]
      exact .codePoint hdigits (hexNumber?_eq_some_iff.2 h) hn
    | lineFeed | tab | carriageReturn | null | backslash | quote | apostrophe =>
      exact .letter (by decide)

theorem Forms.valid_iff {forms : Forms} :
    forms.Valid ↔ ∀ item ∈ forms, IsItem item.1 item.2 :=
  forall₂_congr fun _ _ => isForm_iff_isItem

theorem isItemised_iff {raw : Text} {items : Forms} :
    IsItemised raw items ↔ items.Valid ∧ items.source = raw :=
  and_congr_left' Forms.valid_iff.symm

/-! ## One row only -/

/-- No written form begins another one. -/
theorem IsForm.eq_of_append {w w' t t' : Text} {c c' : CodePoint} (h : IsForm w c)
    (h' : IsForm w' c') (heq : w ++ t = w' ++ t') : w = w' ∧ c = c' := by
  obtain ⟨rfl, hc⟩ | ⟨l, rfl, hread⟩ := Escape.plain_or_read h
  · obtain ⟨rfl, -⟩ | ⟨l', rfl, -⟩ := Escape.plain_or_read h'
    · obtain rfl : c = c' := (List.cons.inj heq).1
      exact ⟨rfl, rfl⟩
    · exact absurd (List.cons.inj heq).1 hc
  · obtain ⟨rfl, hc'⟩ | ⟨l', rfl, hread'⟩ := Escape.plain_or_read h'
    · exact absurd (List.cons.inj heq).1.symm hc'
    · have hlater : l ++ t = l' ++ t' := (List.cons.inj heq).2
      have hsame := hread t
      rw [hlater, hread' t'] at hsame
      simp only [Except.ok.injEq, Prod.mk.injEq] at hsame
      obtain ⟨rfl, hlength⟩ := hsame
      obtain ⟨rfl, -⟩ := List.append_inj hlater (by omega)
      exact ⟨rfl, rfl⟩

/-- Of two rows that begin one text, one begins the other. -/
theorem Forms.Valid.prefix_or {forms later : Forms} (h : forms.Valid) (hlater : later.Valid)
    {t t' : Text} (heq : forms.source ++ t = later.source ++ t') :
    forms <+: later ∨ later <+: forms := by
  induction forms generalizing later with
  | nil => exact .inl List.nil_prefix
  | cons form forms ih =>
    cases later with
    | nil => exact .inr List.nil_prefix
    | cons form' later =>
      obtain ⟨hform, hforms⟩ := List.forall_mem_cons.1 h
      obtain ⟨hform', hlater'⟩ := List.forall_mem_cons.1 hlater
      simp only [Forms.source, List.flatMap_cons, List.append_assoc] at heq
      obtain ⟨hw, hc⟩ := hform.eq_of_append hform' heq
      obtain rfl : form = form' := Prod.ext hw hc
      simp only [List.prefix_cons_inj]
      exact ih hforms hlater' (List.append_cancel_left heq)

theorem Forms.Valid.eq_of_source {forms later : Forms} (h : forms.Valid) (hlater : later.Valid)
    (heq : forms.source = later.source) : forms = later := by
  -- A row that is longer than another one has more to write.
  have hlonger {short long : Forms} (hlong : long.Valid) (h : short <+: long)
      (heq : short.source = long.source) : short = long := by
    obtain ⟨more, rfl⟩ := h
    rw [Forms.source_append] at heq
    have hmore : Forms.source more = [] := List.append_right_eq_self.1 heq.symm
    have hvalid : Forms.Valid more := fun form hform =>
      hlong form (List.mem_append_right _ hform)
    have hle := hvalid.length_le
    rw [hmore, List.length_nil, Nat.le_zero, List.length_eq_zero_iff] at hle
    rw [hle, List.append_nil]
  have hsame : forms.source ++ [] = later.source ++ [] := by rw [heq]
  rcases h.prefix_or hlater hsame with hshort | hshort
  · exact hlonger hlater hshort heq
  · exact (hlonger h hshort heq.symm).symm

theorem IsItemised.unique {raw : Text} {items items' : Forms} (h : IsItemised raw items)
    (h' : IsItemised raw items') : items = items' := by
  obtain ⟨hvalid, rfl⟩ := isItemised_iff.1 h
  obtain ⟨hvalid', heq⟩ := isItemised_iff.1 h'
  exact hvalid.eq_of_source hvalid' heq.symm

/-! ## The first fault -/

namespace IsFaultAt

variable {raw : Text} {b b' : Nat}

theorem lt_length (h : IsFaultAt raw b) : b < raw.length :=
  (List.getElem?_eq_some_iff.1 h.2.1).1

/-- There is one fault at most: behind it nothing is a row of items any more. -/
theorem le (h : IsFaultAt raw b) (h' : IsFaultAt raw b') : b ≤ b' := by
  have hlt := h.lt_length
  have hlt' := h'.lt_length
  obtain ⟨⟨items, hitems⟩, -, -⟩ := h
  obtain ⟨⟨items', hitems'⟩, -, hnone⟩ := h'
  obtain ⟨hvalid, hsource⟩ := isItemised_iff.1 hitems
  obtain ⟨hvalid', hsource'⟩ := isItemised_iff.1 hitems'
  have heq : items'.source ++ raw.drop b' = items.source ++ raw.drop b := by
    rw [hsource, hsource', List.take_append_drop, List.take_append_drop]
  have hlength : items.source.length = b := by
    rw [hsource, List.length_take]
    omega
  have hlength' : items'.source.length = b' := by
    rw [hsource', List.length_take]
    omega
  rcases hvalid'.prefix_or hvalid heq with ⟨more, rfl⟩ | ⟨more, rfl⟩
  · cases more with
    | nil =>
      rw [List.append_nil] at hlength
      omega
    | cons item more =>
      -- The item behind the row of `items'` would begin at its fault.
      have hitem := isForm_iff_isItem.1 (hvalid item (by simp))
      rw [Forms.source_append, List.append_assoc] at heq
      have hdrop := List.append_cancel_left heq
      rw [Forms.source, List.flatMap_cons, List.append_assoc] at hdrop
      exact absurd (hdrop ▸ List.prefix_append _ _) (hnone _ _ hitem)
  · rw [Forms.source_append, List.length_append] at hlength'
    omega

end IsFaultAt

/-- Every character of a row of written forms stands where its form does. -/
theorem PlacedText.getElem?_positions_ofForms {forms : Forms} {k : Nat} (h : k ≤ forms.length)
    (loc : Loc) : (ofForms forms loc).positions[k]? =
      (verbatim forms.source loc).positions[forms.offset k]? := by
  rw [positions_ofForms, List.getElem?_map, List.getElem?_range (by omega),
    getElem?_positions_verbatim (forms.offset_le k), Option.map_some]

namespace Escape

theorem not_prefix_of_read {later w : Text} {fault : EscapeFault} {c : CodePoint}
    (hread : read later = .error fault) (hw : IsItem w c) : ¬ w <+: ↑ '\\' :: later := by
  rintro ⟨rest, heq⟩
  obtain ⟨rfl, hc⟩ | ⟨l, rfl, hl⟩ := plain_or_read (isForm_iff_isItem.2 hw)
  · exact hc (List.cons.inj heq).1
  · obtain rfl : l ++ rest = later := (List.cons.inj heq).2
    rw [hl] at hread
    cases hread

theorem isFaultAt_of_read {forms : Forms} (h : forms.Valid) {later : Text} {fault : EscapeFault}
    (hread : read later = .error fault) :
    IsFaultAt (forms.source ++ ↑ '\\' :: later) forms.source.length := by
  refine ⟨⟨forms, isItemised_iff.2 ⟨h, List.take_left.symm⟩⟩, ?_, ?_⟩
  · rw [List.getElem?_append_right (Nat.le_refl _), Nat.sub_self, List.getElem?_cons_zero]
  · intro w c hw
    rw [List.drop_left]
    exact not_prefix_of_read hread hw

theorem isFaultAt_of_decode {raw : Text} {start loc : Loc} {fault : EscapeFault}
    (h : decode raw start = .error (fault, loc)) :
    ∃ b, IsFaultAt raw b ∧ (PlacedText.verbatim raw start).positions[b]? = some loc := by
  obtain ⟨forms, rest, hforms, rfl, rfl | ⟨later, fault', rfl, hread⟩⟩ := exists_forms raw
  · rw [decode, List.append_nil, decodeFrom_source hforms] at h
    cases h
  · rw [decode, decodeFrom_source_fault hforms hread] at h
    cases h
    have hfault := isFaultAt_of_read hforms hread
    refine ⟨_, hfault, ?_⟩
    rw [PlacedText.getElem?_positions_verbatim (Nat.le_of_lt hfault.lt_length), List.take_left]

/-- Decoding takes a text apart into its items, in the only way there is: every character stands
where its item begins. A text that does not decode has a backslash behind a row of items that
begins none, and is rejected there. -/
theorem decode_exact (raw : Text) (start : Loc) :
    ((∃ body, decode raw start = .ok body) ↔ ∃ items, IsItemised raw items) ∧
    (∀ items items', IsItemised raw items → IsItemised raw items' → items = items') ∧
    (∀ body items, decode raw start = .ok body → IsItemised raw items →
      body.text = items.map (·.2) ∧ body.positions.length = items.length + 1 ∧
      (∀ k < items.length,
        body.positions[k]? = (PlacedText.verbatim raw start).positions[items.offset k]?) ∧
      body.positions[items.length]? = (PlacedText.verbatim raw start).positions[raw.length]?) ∧
    ∀ fault loc, decode raw start = .error (fault, loc) →
      ∃ b, IsFaultAt raw b ∧ (∀ b', IsFaultAt raw b' → b ≤ b') ∧
        (PlacedText.verbatim raw start).positions[b]? = some loc := by
  refine ⟨⟨?_, ?_⟩, fun items items' h h' => h.unique h', ?_, ?_⟩
  · rintro ⟨body, hbody⟩
    obtain ⟨forms, hforms, rfl, -⟩ := decode_eq_ok_iff.1 hbody
    exact ⟨forms, isItemised_iff.2 ⟨hforms, rfl⟩⟩
  · rintro ⟨items, hitems⟩
    obtain ⟨hvalid, rfl⟩ := isItemised_iff.1 hitems
    exact ⟨_, decode_eq_ok_iff.2 ⟨items, hvalid, rfl, rfl⟩⟩
  · intro body items hbody hitems
    obtain ⟨forms, hforms, rfl, rfl⟩ := decode_eq_ok_iff.1 hbody
    obtain rfl : forms = items := (isItemised_iff.2 ⟨hforms, rfl⟩).unique hitems
    refine ⟨PlacedText.text_ofForms forms start, ?_, ?_, ?_⟩
    · rw [PlacedText.length_positions, PlacedText.text_ofForms, List.length_map]
    · intro k hk
      exact PlacedText.getElem?_positions_ofForms (Nat.le_of_lt hk) start
    · rw [← forms.offset_length]
      exact PlacedText.getElem?_positions_ofForms (Nat.le_refl _) start
  · intro fault loc herror
    obtain ⟨b, hfault, hplace⟩ := isFaultAt_of_decode herror
    exact ⟨b, hfault, fun b' h' => hfault.le h', hplace⟩

/-- Four items, of which the last names a surrogate, and a text with a fault on its second line. -/
theorem decode_exact_lines :
    (∃ body, decode "a\n\\x41\\u\x7bD800\x7d" ⟨1, 3⟩ = .ok body ∧
      body.text.map CodePoint.toNat = [0x61, 0x0a, 0x41, 0xd800] ∧
      body.positions[3]? = some ⟨2, 5⟩) ∧
    ∃ b, IsFaultAt ['a', '\n', '\\', 'q'] b ∧
      (PlacedText.verbatim ['a', '\n', '\\', 'q'] ⟨1, 3⟩).positions[b]? = some ⟨2, 1⟩ := by
  have hitems : IsItemised "a\n\\x41\\u\x7bD800\x7d"
      [(['a'], 'a'), (['\n'], '\n'), (['\\', 'x', '4', '1'], 'A'),
        ("\\u\x7bD800\x7d", .surrogate 0)] := by
    have hletter : IsHexNumber ['4', '1'] 0x41 :=
      ⟨[4, 1], .cons (.inl rfl) (.cons (.inl rfl) .nil), rfl⟩
    have hsurrogate : IsHexNumber ['D', '8', '0', '0'] 0xd800 :=
      ⟨[13, 8, 0, 0],
        .cons (.inr rfl) (.cons (.inl rfl) (.cons (.inl rfl) (.cons (.inl rfl) .nil))), rfl⟩
    simp only [IsItemised, List.forall_mem_cons, List.not_mem_nil, false_imp_iff, implies_true,
      and_true]
    exact ⟨⟨.character (by decide), .character (by decide), .byte hletter rfl,
      .codePoint (List.cons_ne_nil _ _) hsurrogate (by decide) rfl⟩, rfl⟩
  constructor
  · obtain ⟨hdecodes, -, hbody, -⟩ := decode_exact "a\n\\x41\\u\x7bD800\x7d" ⟨1, 3⟩
    obtain ⟨body, hok⟩ := hdecodes.2 ⟨_, hitems⟩
    obtain ⟨htext, -, hplaces, -⟩ := hbody body _ hok hitems
    exact ⟨body, hok, congrArg (List.map CodePoint.toNat) htext, hplaces 3 (by decide)⟩
  · have hfault : decode ['a', '\n', '\\', 'q'] ⟨1, 3⟩ = .error (.unknown 'q', ⟨2, 1⟩) := rfl
    obtain ⟨b, hb, -, hplace⟩ := (decode_exact _ _).2.2.2 _ _ hfault
    exact ⟨b, hb, hplace⟩

end Escape

end Splice
