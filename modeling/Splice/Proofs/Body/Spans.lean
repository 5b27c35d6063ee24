import Splice.Proofs.Body.Moved
import Splice.Proofs.Body.Positions

/-!
# What reports cover

A literal that is rejected is reported at a stretch of the source: from where one of its characters
is encoded, or its first letter stands, to where another character is encoded, or right behind the
first character that its closing quote is encoded by.

* `Span.ofOffsets`: the stretch between two offsets of a source.
* `EncodedIn.getElem?_locate`: what an encoding starts with.
* `Diagnostic.Covers`: what a report covers.
* `Interpolation.Exact.covers`: whatever a literal is rejected for, the report covers this.
-/

namespace Splice

/-! ## Stretches -/

theorem Loc.ofOffset_succ {source : Text} {k : Nat} {c : CodePoint} (h : source[k]? = some c)
    (hc : c ≠ '\n') : ofOffset source (k + 1) = (ofOffset source k).right 1 := by
  obtain ⟨hlt, rfl⟩ := List.getElem?_eq_some_iff.1 h
  rw [ofOffset, List.take_succ_eq_append_getElem hlt, advanceAll_append]
  exact if_neg hc

/-- The stretch of a source between two offsets. -/
def Span.ofOffsets (file : Option Text) (source : Text) (first stop : Nat) : Span :=
  .between file (Loc.ofOffset source first) (Loc.ofOffset source stop)

/-! ## Encodings -/

/-- A written form starts with its character or with a backslash. -/
theorem IsForm.head?_eq {w : Text} {c : CodePoint} (h : IsForm w c) :
    w.head? = some c ∨ w.head? = some ↑ '\\' := by
  cases h with
  | plain => exact .inl rfl
  | letter | byte | codePoint => exact .inr rfl

namespace Forms

variable {forms : Forms}

/-- The row with the closing quote behind it. -/
def closed (forms : Forms) : Forms := forms ++ ([(['"'], '"')] : Forms)

theorem Valid.closed (h : forms.Valid) : forms.closed.Valid :=
  List.forall_mem_append.2 ⟨h, List.forall_mem_singleton.2 (.plain (by decide))⟩

theorem source_closed (forms : Forms) : forms.closed.source = forms.source ++ (['"'] : Text) :=
  source_append forms _

theorem offset_closed {k : Nat} (h : k ≤ forms.length) :
    forms.closed.offset k = forms.offset k := by
  rw [offset, closed, List.take_append_of_le_length h, offset]

theorem getElem?_source {k : Nat} {w : Text} {c d : CodePoint} (h : forms[k]? = some (w, c))
    (hd : w.head? = some d) : forms.source[forms.offset k]? = some d := by
  obtain ⟨hlt, hform⟩ := List.getElem?_eq_some_iff.1 h
  obtain ⟨w', rfl⟩ := List.head?_eq_some_iff.1 hd
  have hsource : forms.source =
      source (forms.take k) ++ (d :: w' ++ source (forms.drop (k + 1))) := by
    rw [← List.take_append_drop k forms, source_append, List.take_append_drop,
      List.drop_eq_getElem_cons hlt, hform]
    rfl
  rw [hsource, offset, List.getElem?_append_right (Nat.le_refl _), Nat.sub_self]
  rfl

end Forms

section Encodings

variable {source raw outer : Text} {kind : InterpolationKind} {body : Text} {forms : Forms}
  {start first stop offset : Nat} {locate : Nat → Nat} {found : List Segment} {role : Option Role}
  {node : Node}

/-- The form of a character of a literal, or of its closing quote, starts with it or with a
backslash. -/
theorem WrittenAt.getElem?_eq (h : WrittenAt source offset kind forms) {k : Nat} {c : CodePoint}
    (hc : (forms.map (·.2) ++ (['"'] : Text))[k]? = some c) :
    source[offset + 2 + forms.offset k]? = some c ∨
      source[offset + 2 + forms.offset k]? = some ↑ '\\' := by
  obtain ⟨before, after, rfl, rfl⟩ := h.stands
  have hclosed : forms.map (·.2) ++ (['"'] : Text) = forms.closed.map (·.2) := by
    rw [Forms.closed, List.map_append]
    rfl
  rw [hclosed, List.getElem?_map] at hc
  obtain ⟨⟨w, c⟩, hform, rfl⟩ := Option.map_eq_some_iff.1 hc
  obtain ⟨hlt, -⟩ := List.getElem?_eq_some_iff.1 hform
  rw [Forms.closed, List.length_append, List.length_singleton] at hlt
  have hinside {d : CodePoint} (hd : w.head? = some d) :
      (before ++ kind.letter :: '"' :: (forms.source ++ ↑ '"' :: after))[
        before.length + 2 + forms.offset k]? = some d := by
    have hsource := Forms.getElem?_source hform hd
    rw [Forms.offset_closed (Nat.le_of_lt_succ hlt)] at hsource
    obtain ⟨hlt, -⟩ := List.getElem?_eq_some_iff.1 hsource
    rw [Nat.add_assoc, List.getElem?_append_right (Nat.le_add_right _ _), Nat.add_sub_cancel_left,
      Nat.add_comm 2, List.getElem?_cons_succ, List.getElem?_cons_succ, List.append_cons,
      ← Forms.source_closed, List.getElem?_append_left hlt, hsource]
  exact (h.valid.closed _ (List.mem_of_getElem? hform)).head?_eq.imp hinside hinside

/-- A character of a group is one of the body. -/
theorem group_getElem? (hfound : segments outer = .ok found)
    (hgroup : .insertion (.group raw first stop role node) ∈ found) {k : Nat} {c : CodePoint}
    (hc : raw[k]? = some c) : outer[first + 2 + k]? = some c := by
  obtain ⟨before, after, rfl, hfirst⟩ := insertion_of_segments hfound hgroup
  obtain rfl : first = before.length := hfirst
  obtain ⟨hlt, -⟩ := List.getElem?_eq_some_iff.1 hc
  rw [Nat.add_assoc, List.getElem?_append_right (Nat.le_add_right _ _), Nat.add_sub_cancel_left,
    Insertion.source, Nat.add_comm 2, List.cons_append, List.cons_append, List.append_assoc,
    List.getElem?_cons_succ, List.cons_append, List.getElem?_cons_succ,
    List.getElem?_append_left hlt, hc]

/-- The encoding of a character, or of the closing quote, starts with it or with a backslash. -/
theorem EncodedIn.getElem?_locate (h : EncodedIn source kind body start locate) {k : Nat}
    {c : CodePoint} (hc : (body ++ (['"'] : Text))[k]? = some c) :
    source[locate k]? = some c ∨ source[locate k]? = some ↑ '\\' := by
  induction h generalizing k c with
  | written h => exact h.getElem?_eq hc
  | @nested kind kind' outer raw start first stop offset locate found role node forms _ hfound
      hgroup hwritten ih =>
    have houter {j : Nat} {d : CodePoint} (hd : raw[j]? = some d) :
        source[locate (first + 2 + j)]? = some d ∨
          source[locate (first + 2 + j)]? = some ↑ '\\' := by
      have hd := group_getElem? hfound hgroup hd
      obtain ⟨hlt, -⟩ := List.getElem?_eq_some_iff.1 hd
      exact ih (by rw [List.getElem?_append_left hlt, hd])
    rcases hwritten.getElem?_eq hc with h | h
    · exact houter h
    · exact .inr ((houter h).elim id id)

/-- The letter of a literal stands before its characters. -/
theorem EncodedIn.start_lt (h : EncodedIn source kind body start locate) : start < locate 0 := by
  cases h with
  | written => exact Nat.lt_add_right _ (Nat.lt_add_of_pos_right Nat.two_pos)
  | nested h hfound hgroup hwritten =>
    refine h.lt.1 _ _ (by omega) (Nat.le_of_lt (group_lt hfound hgroup ?_))
    exact Nat.le_of_lt (hwritten.offset_lt 0)

/-- A quote in a body is encoded by two characters at least. -/
theorem EncodedIn.quote_lt (h : EncodedIn source kind body start locate) {k : Nat}
    (hk : body[k]? = some ↑ '"') : locate k + 1 < locate (k + 1) := by
  cases h with
  | @written offset kind forms h =>
    have hlt := h.quote_lt hk
    simp only
    omega
  | @nested kind kind' outer raw start first stop offset locate found role node forms h hfound
      hgroup hwritten =>
    have hlt := hwritten.quote_lt hk
    obtain ⟨hrise, -⟩ := h.lt
    have hbody := group_lt hfound hgroup (Nat.le_of_lt (hwritten.offset_lt (k + 1)))
    generalize hm : first + 2 + (offset + 2 + forms.offset k) = m
    generalize hn : first + 2 + (offset + 2 + forms.offset (k + 1)) = n at hbody
    have hfirst := hrise m (m + 1) (Nat.lt_succ_self m) (by omega)
    have hlast := hrise (m + 1) n (by omega) (by omega)
    simp only [hm, hn]
    omega

end Encodings

namespace Interpolation

variable {source : Text} {i : Interpolation} {start : Nat} {locate : Nat → Nat}

/-- Behind the last character of a body there is the closing quote. -/
theorem locate_length (i : Interpolation) : i.locate i.body.text.length = i.body.stop := by
  rw [Interpolation.locate, PlacedText.locate, Int.toNat_natCast, PlacedText.text, List.length_map,
    List.getElem?_eq_none (Nat.le_refl _)]
  rfl

/-- A literal stops right behind the first character that its closing quote is encoded by. -/
theorem Exact.stop_eq (h : i.Exact source start locate) :
    i.stop = Loc.ofOffset source (locate i.body.text.length + 1) := by
  have hquote : (i.body.text ++ (['"'] : Text))[i.body.text.length]? = some ↑ '"' :=
    List.getElem?_concat_length
  rw [stop, ← i.locate_length, h.locate_eq (Nat.le_refl _)]
  rcases h.encoded.getElem?_locate hquote with hc | hc
  · exact (Loc.ofOffset_succ hc (by decide)).symm
  · exact (Loc.ofOffset_succ hc (by decide)).symm

end Interpolation

/-! ## Reports -/

/-- The places of the characters of a body and of its closing quote, which is the one behind the
last, and the place right behind the first character of the quote. -/
def closedAt (locate : Nat → Nat) (size k : Nat) : Nat :=
  if size < k then locate size + 1 else locate k

theorem closedAt_of_le {locate : Nat → Nat} {size k : Nat} (h : k ≤ size) :
    closedAt locate size k = locate k := if_neg (Nat.not_lt.2 h)

theorem EncodedIn.closedAt_lt {source body : Text} {kind : InterpolationKind} {start : Nat}
    {locate : Nat → Nat} (h : EncodedIn source kind body start locate) {j k : Nat} (hjk : j < k)
    (hk : k ≤ body.length + 1) :
    closedAt locate body.length j < closedAt locate body.length k ∧
      closedAt locate body.length k ≤ source.length := by
  obtain ⟨hrise, hinside⟩ := h.lt
  rw [closedAt_of_le (Nat.le_of_lt_succ (Nat.lt_of_lt_of_le hjk hk))]
  unfold closedAt
  split
  · refine ⟨Nat.lt_succ_of_le ?_, hinside _ (Nat.le_refl _)⟩
    rcases Nat.eq_or_lt_of_le (Nat.le_of_lt_succ (Nat.lt_of_lt_of_le hjk hk)) with rfl | hlt
    · exact Nat.le_refl _
    · exact Nat.le_of_lt (hrise _ _ hlt (Nat.le_refl _))
  · next hle =>
    have hk := Nat.not_lt.1 hle
    exact ⟨hrise _ _ hjk hk, Nat.le_of_lt (hinside _ hk)⟩

/-- What a report about a literal covers, from one offset of the source to another. The letter of
the literal is at `start`, and its characters, its closing quote, and what comes behind the quote
are at `place`. -/
inductive Diagnostic.Covers (source body : Text) (start : Nat) (place : Nat → Nat)
    (d : Diagnostic) : (first stop : Nat) → Prop
  /-- The character behind the first dollar sign that begins no escape, and a note that says where
  the sign is. -/
  | invalidEscape {before after : Text} (hcode : d.code = some Fault.invalidEscape.code)
    (hbody : body = before ++ ↑ '$' :: after) (hbefore : ∃ found, segments before = .ok found)
    (hnext : ∀ c ∈ after.head?, c ≠ '$' ∧ isNameStart c = false ∧ c ≠ '(')
    (hnote : d.notes.head? = some (escapeNote (Loc.ofOffset source (place before.length)))) :
    Covers source body start place d (place (before.length + 1)) (place (before.length + 2))
  /-- A group that nothing closes, from its dollar sign to the closing quote. -/
  | unbalancedGroup {before after : Text} (hcode : d.code = some Fault.unbalancedGroup.code)
    (hbody : body = before ++ ↑ '$' :: ↑ '(' :: after)
    (hbefore : ∃ found, segments before = .ok found)
    (hopen : ∀ n, Closing.distance after 0 0 ≠ .ok n) :
    Covers source body start place d (place before.length) (place body.length)
  /-- A group that is neither a type nor an expression, with its closing parenthesis. -/
  | invalidGroupContent {before raw after : Text}
    (hcode : d.code = some Fault.invalidGroupContent.code)
    (hbody : body = before ++ ↑ '$' :: ↑ '(' :: (raw ++ ↑ ')' :: after))
    (hbefore : ∃ found, segments before = .ok found) (hgroup : IsGroupText raw)
    (htype : ∀ t, parseType raw ≠ .ok t) (hexpr : ∀ e, parseExpr raw ≠ .ok e) :
    Covers source body start place d (place before.length) (place (before.length + raw.length + 3))
  /-- The whole literal. -/
  | illegalContext (hcode : d.code = some Fault.illegalContext.code) :
    Covers source body start place d start (place (body.length + 1))

/-- A dollar sign that begins no escape, or a group that nothing closes. -/
theorem Segment.exists_of_ofDollar_error {dollar : Nat} {t : Text} {r : Rejection}
    (h : ofDollar dollar t = .error r) :
    r.cause.fault = .invalidEscape ∧ r.start = some ((dollar + 1 : Nat) : Int) ∧
        r.stop = some ((dollar + 2 : Nat) : Int) ∧ r.anchor = some (dollar : Int) ∧
        (∀ c ∈ t.head?, c ≠ '$' ∧ isNameStart c = false ∧ c ≠ '(') ∨
      ∃ rest, t = ↑ '(' :: rest ∧ r.cause.fault = .unbalancedGroup ∧ r.start = some (dollar : Int) ∧
        r.stop = some ((dollar + 2 + rest.length : Nat) : Int) ∧
        ∀ n, Closing.distance rest 0 0 ≠ .ok n := by
  cases t with
  | nil =>
    cases h
    refine .inl ⟨rfl, rfl, rfl, rfl, ?_⟩
    rintro _ ⟨⟩
  | cons c rest =>
    rw [ofDollar] at h
    by_cases hdollar : c = '$'
    · rw [if_pos hdollar] at h
      cases h
    rw [if_neg hdollar] at h
    by_cases hname : isNameStart c = true
    · rw [if_pos hname] at h
      cases h
    rw [if_neg hname] at h
    by_cases hgroup : c = '('
    · rw [if_pos hgroup] at h
      cases hfound : Closing.distance rest 0 0 with
      | ok n =>
        rw [hfound] at h
        cases h
      | error what =>
        rw [hfound] at h
        cases h
        refine .inr ⟨rest, by rw [hgroup], rfl, rfl, rfl, fun n hn => ?_⟩
        cases hfound.symm.trans hn
    · rw [if_neg hgroup] at h
      cases h
      refine .inl ⟨rfl, rfl, rfl, rfl, ?_⟩
      rintro _ ⟨⟩
      exact ⟨hdollar, Bool.eq_false_iff.2 hname, hgroup⟩

/-- A text that a parser of the host grammar does not cover has no tree. -/
theorem FragmentParse.ne_ok_of_covers {raw : Text} {x : Except ParseError Node} {p : FragmentParse}
    (hp : ofResult raw x = .ok p) (hcovers : p.covers raw = false) (n : Node) : x ≠ .ok n := by
  rintro rfl
  obtain ⟨p', hp', hcovers', -⟩ := @covers_ofResult raw (.ok n) fun _ h => by cases h
  cases hp.symm.trans hp'
  rw [hcovers'] at hcovers
  cases hcovers

namespace Interpolation

variable {source : Text} {i : Interpolation} {start : Nat} {locate : Nat → Nat}

theorem Exact.span_eq (h : i.Exact source start locate) (file : Option Text) {first last : Nat}
    (hlt : first < last) (hfirst : first ≤ i.body.text.length) :
    i.span file (some first) (some last) = .ofOffsets file source (locate first)
      (closedAt locate i.body.text.length last) := by
  have hlength : i.body.chars.length = i.body.text.length := (List.length_map _).symm
  have hlast : ¬ (last : Int) ≤ first := by omega
  simp only [span, if_neg hlast, hlength, h.locate_eq hfirst, Span.ofOffsets, closedAt]
  by_cases hpast : i.body.text.length < last
  · rw [if_pos hpast, if_pos (by omega), h.stop_eq]
  · rw [if_neg hpast, if_neg (by omega), h.locate_eq (by omega)]

theorem Exact.span_none (h : i.Exact source start locate) (file : Option Text)
    (stop : Option Int) : i.span file none stop = .ofOffsets file source start
      (closedAt locate i.body.text.length (i.body.text.length + 1)) := by
  rw [closedAt, if_pos (Nat.lt_succ_self _), Span.ofOffsets, ← h.stop_eq, ← h.loc_eq]
  rfl

theorem code_diagnostic {r : Rejection} {fault : Fault} (h : r.cause.fault = fault)
    (i : Interpolation) (file : Option Text) : (i.diagnostic file r).code = some fault.code :=
  h ▸ rfl

/-- Whatever is wrong in the body of a literal, the report covers it. -/
theorem Exact.covers_of_resolved (h : i.Exact source start locate) (file : Option Text)
    {r : Rejection} (hr : (i.resolved .host).run = .ok (.error r)) :
    ∃ first stop, first < stop ∧ first ≤ i.body.text.length ∧ stop ≤ i.body.text.length + 1 ∧
      r.start = some (first : Int) ∧ r.stop = some (stop : Int) ∧
      (i.diagnostic file r).Covers source i.body.text start
        (closedAt locate i.body.text.length) (closedAt locate i.body.text.length first)
        (closedAt locate i.body.text.length stop) := by
  -- Either the body is no row of segments, or the text of a group in it has no tree.
  obtain hsegments | ⟨found, hfound, hresolve⟩ := Attempt.run_bind_eq_error.1 hr
  · obtain ⟨before, after, hbody, hdollar, hbefore⟩ :=
      exists_of_scan_error (Except.ok.inj hsegments)
    have hlength := congrArg List.length hbody
    rw [List.length_append, List.length_cons] at hlength
    rw [Nat.zero_add] at hdollar
    obtain ⟨hfault, hstart, hstop, hanchor, hnext⟩ | ⟨rest, rfl, hfault, hstart, hstop, hopen⟩ :=
      Segment.exists_of_ofDollar_error hdollar
    · refine ⟨before.length + 1, before.length + 2, by omega, by omega, by omega, hstart, hstop,
        .invalidEscape (code_diagnostic hfault i file) hbody hbefore hnext ?_⟩
      rw [diagnostic, hanchor, closedAt_of_le (by omega), ← h.locate_eq (by omega)]
      rfl
    · rw [List.length_cons] at hlength
      have hsize : before.length + 2 + rest.length = i.body.text.length := by omega
      rw [hsize] at hstop
      exact ⟨before.length, i.body.text.length, by omega, by omega, by omega, hstart, hstop,
        .unbalancedGroup (code_diagnostic hfault i file) hbody hbefore hopen⟩
  · obtain ⟨ins, hmem, hins⟩ := Segment.exists_of_resolve_error hresolve
    obtain ⟨before, after, next, hbody, hbefore, hescape⟩ :=
      escapeAt_of_segments (Except.ok.inj hfound) hmem
    cases ins with
    | name => cases hins
    | group raw first stop role node =>
      obtain ⟨asType, asExpr, htype, hexpr, hnoType, hnoExpr, rfl⟩ :=
        exists_of_resolveGroup_error hins
      cases hescape with
      | group hgroup =>
        have hbody : i.body.text = before ++ ↑ '$' :: ↑ '(' :: (raw ++ ↑ ')' :: after) := by
          rw [hbody, Insertion.source]
          simp
        have hlength := congrArg List.length hbody
        simp only [List.length_append, List.length_cons] at hlength
        exact ⟨before.length, before.length + raw.length + 3, by omega, by omega, by omega, rfl,
          rfl, .invalidGroupContent rfl hbody hbefore hgroup
            (FragmentParse.ne_ok_of_covers htype hnoType)
            (FragmentParse.ne_ok_of_covers hexpr hnoExpr)⟩

/-- Whatever a literal is rejected for, the report covers something, and it is this. -/
theorem Exact.covers (h : i.Exact source start locate) {context : Context} {file : Option Text}
    {d : Diagnostic} (hlower : i.lower context .host file = .ok (.error d)) :
    ∃ first stop, d.span = .ofOffsets file source first stop ∧ first < stop ∧
      stop ≤ source.length ∧
      d.Covers source i.body.text start (closedAt locate i.body.text.length) first stop := by
  obtain ⟨r, hr, rfl⟩ := lower_eq_error.1 hlower
  rw [attempt_eq] at hr
  obtain hresolved | ⟨segments, -, hadmitted⟩ := Attempt.run_bind_eq_error.1 hr
  · obtain ⟨first, stop, hlt, hfirst, hstop, hrstart, hrstop, hcovers⟩ :=
      h.covers_of_resolved file hresolved
    obtain ⟨hrise, hinside⟩ := h.encoded.closedAt_lt hlt hstop
    refine ⟨_, _, ?_, hrise, hinside, hcovers⟩
    rw [closedAt_of_le hfirst, ← h.span_eq file hlt hfirst, ← hrstart, ← hrstop]
    rfl
  · obtain ⟨-, rfl⟩ := i.admitted_rejects context segments r hadmitted
    have hfault : (context.refusal i.kind).fault = .illegalContext := by cases context <;> rfl
    obtain ⟨hrise, hinside⟩ := h.encoded.closedAt_lt (Nat.succ_pos i.body.text.length)
      (Nat.le_refl _)
    rw [closedAt_of_le (Nat.zero_le _)] at hrise
    exact ⟨start, _, h.span_none file none, Nat.lt_trans h.encoded.start_lt hrise, hinside,
      .illegalContext (code_diagnostic hfault i file)⟩

end Interpolation

/-! ## Literals in groups -/

namespace Interpolation

variable {source : Text} {outer i : Interpolation} {start : Nat} {locate : Nat → Nat}
  {ins : Insertion}

/-- A literal in a group stands in the body of the outer one, form by form between its quotes, and
it is encoded as the body is. -/
theorem Exact.exists_token (h : outer.Exact source start locate) (hins : outer.Resolves ins)
    (hi : i ∈ ins.node.literals) :
    ∃ (before after : Text) (forms : Forms), forms.Valid ∧ i.body.text = forms.map (·.2) ∧
      outer.body.text = before ++ i.kind.letter :: '"' :: (forms.source ++ ↑ '"' :: after) ∧
      i.Exact source (locate before.length) fun k =>
        locate (before.length + 2 + forms.offset k) := by
  obtain ⟨found, raw, first, stop, role, node, hfound, hgroup, inner, offset, forms, hinner, rfl⟩ :=
    hins.exists_movedFrom hi
  have hexact := h.nested hfound hgroup hinner
  obtain ⟨before, after, hbody, hfirst⟩ := insertion_of_segments hfound hgroup
  obtain rfl : first = before.length := hfirst
  obtain ⟨before', after', rfl, hraw⟩ := hinner.written.stands
  refine ⟨before ++ ↑ '$' :: ↑ '(' :: before', after' ++ ↑ ')' :: after, forms,
    hinner.written.valid, ?_, ?_, ?_⟩
  · rw [mapLoc, PlacedText.text_map, hinner.text_eq]
  · rw [hbody, Insertion.source, hraw, mapLoc]
    simp
  · have hlength : (before ++ ↑ '$' :: ↑ '(' :: before').length =
        before.length + 2 + before'.length := by
      simp only [List.length_append, List.length_cons]
      omega
    rw [hlength]
    simpa only [Nat.add_assoc] using hexact

end Interpolation

end Splice
