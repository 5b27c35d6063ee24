import Splice.Proofs.Body.Spans
import Splice.Proofs.Embedding.Arguments
import Splice.Proofs.Rewrite.Rejected
import Splice.Proofs.Rewrite.Reports

/-!
# Reports of a source

Whatever rewriting a source reports, it reports for a literal that is written in the source or for
one in the group of another literal. The stretch that a report of the first sort covers is exact. A
report of the second sort that means the whole literal ends too early: the closing quote is encoded
by two characters at least, and the report ends behind the first of them.

* `Interpolation.NestedIn`: the literals in groups.
* `Rewriter.program_spans`: the reports for the literals that are written in a source.
* `Rewriter.nested_spans`: the reports of misplaced literals in groups.
-/

namespace Splice

/-- A literal in a group of another one that rewriting a source meets. -/
def Interpolation.NestedIn (source : Text) (outer i : Interpolation) : Prop :=
  outer.MetIn source ∧ ∃ ins, outer.Resolves ins ∧ i ∈ ins.node.literals

namespace Forms

/-- Behind the closing quote of a literal there is its end. -/
theorem closedAt_offset (forms : Forms) (offset : Nat) :
    closedAt (offset + 2 + forms.offset ·) forms.length =
      fun k => offset + 2 + forms.closed.offset k := by
  funext k
  unfold closedAt
  split
  next hlt =>
    have htake : forms.closed.take k = forms.closed :=
      List.take_of_length_le (by rw [closed, List.length_append]; exact hlt)
    have hstop : forms.closed.offset k = forms.source.length + 1 := by
      rw [Forms.offset, htake, source_closed, List.length_append]
      rfl
    rw [hstop]
    exact congrArg (offset + 2 + · + 1) forms.offset_length
  next hle => rw [offset_closed (Nat.not_lt.1 hle)]

end Forms

namespace Rewriter

variable {r : Rewriter} {source : Text} {p : Program}

/-- Rewriting a program reports nothing but what literals are rejected for that are written in its
source or stand in the groups of others. The report for a literal that is written in the source
covers a stretch of the source that is not empty, from where the form of one of its characters
begins to where another one's does, and these are the characters that are wrong. -/
theorem program_spans (hr : r.parsers = .host) (hp : parseProgram source = .ok p) :
    (∀ d ∈ (r.program p).log.diagnostics, (∃ i ∈ Node.literalsOf p, i.RejectedWith r d) ∨
      ∃ outer i, Interpolation.NestedIn source outer i ∧ i.RejectedWith r d) ∧
    ∀ i ∈ Node.literalsOf p, ∃ offset forms, i.WrittenIn source offset forms ∧
      ∀ d, i.RejectedWith r d → ∃ first stop, d.span = .ofOffsets r.file source first stop ∧
        first < stop ∧ stop ≤ source.length ∧
        Loc.ofOffset source first < Loc.ofOffset source stop ∧
        d.Covers source i.body.text offset (fun k => offset + 2 + forms.closed.offset k)
          first stop := by
  refine ⟨fun d hd => ?_, fun i hi => ?_⟩
  · obtain ⟨i, hmet, hreject⟩ := program_reports hr hp d hd
    cases hmet with
    | written hp' hi =>
      cases hp.symm.trans hp'
      exact .inl ⟨i, hi, hreject⟩
    | nested hmet hins hi => exact .inr ⟨_, i, ⟨hmet, _, hins, hi⟩, hreject⟩
  · obtain ⟨offset, forms, hwritten⟩ := Interpolation.exists_writtenIn_of_parseProgram hp hi
    refine ⟨offset, forms, hwritten, ?_⟩
    rintro d ⟨context, hlower⟩
    rw [hr] at hlower
    obtain ⟨first, stop, hspan, hlt, hle, hcovers⟩ := hwritten.exact.covers hlower
    rw [hwritten.length_eq, Forms.closedAt_offset] at hcovers
    exact ⟨first, stop, hspan, hlt, hle, Loc.ofOffset_lt source hlt hle, hcovers⟩

/-- A dollar sign at the end of a body. -/
theorem program_spans_dollar :
    let source := callSource .interspersed ['$']
    ∃ p d, ({} : Rewriter).parsers = .host ∧ parseProgram source = .ok p ∧
      (({} : Rewriter).program p).log.diagnostics = [d] ∧
      (∀ d ∈ (({} : Rewriter).program p).log.diagnostics,
        (∃ i ∈ Node.literalsOf p, i.RejectedWith {} d) ∨
          ∃ outer i, Interpolation.NestedIn source outer i ∧ i.RejectedWith {} d) ∧
      ∀ i ∈ Node.literalsOf p, ∃ offset forms, i.WrittenIn source offset forms ∧
        ∀ d, i.RejectedWith {} d → ∃ first stop, d.span = .ofOffsets none source first stop ∧
          first < stop ∧ stop ≤ source.length ∧
          Loc.ofOffset source first < Loc.ofOffset source stop ∧
          d.Covers source i.body.text offset (fun k => offset + 2 + forms.closed.offset k)
            first stop := by
  intro source
  obtain ⟨loc, callLoc, calleeLoc, i, hparse, -, hbody⟩ :=
    parseProgram_callSource .interspersed ['$']
  let d := i.diagnostic none
    { cause := .dollarAtEnd, start := some 1, stop := some 2, anchor := some 0 }
  have hlower : i.lower .callArgument .host none = .ok (.error d) := by
    rw [Interpolation.lower, Interpolation.attempt, hbody]
    rfl
  have hsplice : ({} : Rewriter).splice ({} : Rewriter).nested .callArgument i =
      .of { diagnostics := [d] } (.ok ([.interpolation i], [])) := by
    rw [splice, hlower]
    exact Walk.ext_log rfl rfl
  refine ⟨_, d, rfl, hparse, ?_, program_spans rfl hparse⟩
  simp only [program, stmts, stmt, expr, Node.rewrite, Node.rewriteArgs, hsplice]
  rfl

/-! ## A literal that is a whole group -/

/-- A call with a literal, `g(i"$(i\"\")");`. -/
def wholeGroup : Text :=
  (['g', '(', 'i', '"', '$', '(', 'i', '\\', '"', '\\', '"', ')', '"', ')', ';'] : Text)

/-- The literal, whose body is a group with another literal. -/
def wholeGroup.outer : Interpolation :=
  ⟨⟨1, 3⟩, .interspersed, ⟨[('$', ⟨1, 5⟩), ('(', ⟨1, 6⟩), ('i', ⟨1, 7⟩), ('"', ⟨1, 8⟩),
    ('"', ⟨1, 10⟩), (')', ⟨1, 12⟩)], ⟨1, 13⟩⟩⟩

/-- The literal in the group, whose body is empty. -/
def wholeGroup.inner : Interpolation := ⟨⟨1, 7⟩, .interspersed, ⟨[], ⟨1, 10⟩⟩⟩

/-- The literal in the group is misplaced, and this is reported. -/
theorem wholeGroup_reports :
    let d := wholeGroup.inner.diagnostic none
      { cause := .misplaced wholeGroup.inner.kind "interpolation group" }
    ∃ p, parseProgram wholeGroup = .ok p ∧ d ∈ (({} : Rewriter).program p).log.diagnostics ∧
      Interpolation.NestedIn wholeGroup wholeGroup.outer wholeGroup.inner ∧
      wholeGroup.inner.RejectedWith {} d := by
  intro d
  have htokens : (Lexed.ofText wholeGroup).tokens = [⟨.name, ['g'], 0, ⟨1, 1⟩⟩,
      ⟨.mark .lparen, ['('], 1, ⟨1, 2⟩⟩,
      ⟨.interpolatedLit, ['i', '"', '$', '(', 'i', '\\', '"', '\\', '"', ')', '"'], 2, ⟨1, 3⟩⟩,
      ⟨.mark .rparen, [')'], 13, ⟨1, 14⟩⟩, ⟨.mark .semicolon, [';'], 14, ⟨1, 15⟩⟩] := by
    decide +kernel
  have hprogram : parseProgram wholeGroup = .ok [.evaluate ⟨1, 1⟩
      (.call ⟨1, 1⟩ (.name ⟨1, 1⟩ ['g']) [.interpolation wholeGroup.outer])] :=
    parseProgram_callLiteral (by decide +kernel) htokens rfl rfl rfl rfl rfl rfl
  -- The literal as it stands in the text of the group, before the text is placed.
  let j : Interpolation := ⟨⟨1, 1⟩, .interspersed, ⟨[], ⟨1, 3⟩⟩⟩
  have hgroup : parseExpr ['i', '"', '"'] = .ok (.interpolation j) := by
    refine (@parse_eq_ok_iff_isTree .expr ['i', '"', '"'] _).2 ⟨by decide +kernel, ?_⟩
    have htokens : (Lexed.ofText ['i', '"', '"']).tokens =
        [⟨.interpolatedLit, ['i', '"', '"'], 0, ⟨1, 1⟩⟩] := by decide +kernel
    rw [htokens]
    exact Phrase.toExpr (.ofPrimary (.interpolation rfl rfl))
  have hinner : j.mapLoc (Insertion.place ['i', '"', '"'] 0 wholeGroup.outer.locate) =
      wholeGroup.inner := by decide
  obtain ⟨resolved, hlower⟩ :=
    @Interpolation.lower_group wholeGroup.outer ['i', '"', '"'] 6 _ rfl rfl hgroup rfl none
  rw [Insertion.exprNode, Node.mapLoc, hinner] at hlower
  obtain ⟨_, hrewrite⟩ := program_wholeGroup hlower (by decide) rfl ⟨1, 1⟩ ⟨1, 1⟩ ⟨1, 1⟩ ['g']
  have hresolves := Interpolation.resolves_of_lower hlower _ _ _ List.mem_cons_self
  obtain ⟨ins, hins, hnode⟩ := hresolves
  have hmet : wholeGroup.outer.MetIn wholeGroup := .written hprogram List.mem_cons_self
  have hrejected : wholeGroup.inner.RejectedWith {} d := ⟨.other "interpolation group", rfl⟩
  have hnested : Interpolation.NestedIn wholeGroup wholeGroup.outer wholeGroup.inner := by
    refine ⟨hmet, ins, hins, ?_⟩
    rw [hnode]
    exact List.mem_cons_self
  refine ⟨_, hprogram, ?_, hnested, hrejected⟩
  rw [hrewrite]
  exact List.mem_singleton_self d

/-! ## Literals in groups -/

/-- A literal in a group that is misplaced is reported from where its letter is encoded to right
behind the first character that its closing quote is encoded by, and there is another one. -/
theorem nested_spans (hr : r.parsers = .host) {outer i : Interpolation}
    (h : Interpolation.NestedIn source outer i) {d : Diagnostic} (hd : i.RejectedWith r d)
    (hcode : d.code = some Fault.illegalContext.code) :
    ∃ start locate, ∃ before after : Text, ∃ forms, outer.Exact source start locate ∧
      Forms.Valid forms ∧ i.body.text = forms.map (·.2) ∧
      outer.body.text = before ++ i.kind.letter :: '"' :: (forms.source ++ ↑ '"' :: after) ∧
      let quote := before.length + 2 + forms.source.length
      d.span = .ofOffsets r.file source (locate before.length) (locate quote + 1) ∧
        locate quote + 1 < locate (quote + 1) := by
  obtain ⟨hmet, ins, hins, hi⟩ := h
  obtain ⟨start, locate, hexact⟩ := hmet.exact
  obtain ⟨before, after, forms, hforms, htext, hbody, hinner⟩ := hexact.exists_token hins hi
  obtain ⟨context, hlower⟩ := hd
  rw [hr] at hlower
  refine ⟨start, locate, before, after, forms, hexact, hforms, htext, hbody, ?_, ?_⟩
  · obtain ⟨-, rfl⟩ | ⟨hbody, -⟩ := Interpolation.lower_rejected hlower
    · have hquote : i.body.text.length = forms.length := by rw [htext, List.length_map]
      rw [← forms.offset_length, ← hquote]
      refine (hinner.span_none r.file none).trans ?_
      rw [closedAt, if_pos (Nat.lt_succ_self _)]
    · exact absurd hcode hbody
  · refine hexact.encoded.quote_lt ?_
    rw [hbody, Nat.add_assoc, List.getElem?_append_right (Nat.le_add_right _ _),
      Nat.add_sub_cancel_left, Nat.add_comm 2, List.getElem?_cons_succ, List.getElem?_cons_succ,
      List.getElem?_append_right (Nat.le_refl _), Nat.sub_self]
    rfl

theorem nested_spans_wholeGroup :
    let d := wholeGroup.inner.diagnostic none
      { cause := .misplaced wholeGroup.inner.kind "interpolation group" }
    ({} : Rewriter).parsers = .host ∧
    Interpolation.NestedIn wholeGroup wholeGroup.outer wholeGroup.inner ∧
    wholeGroup.inner.RejectedWith {} d ∧ d.code = some Fault.illegalContext.code ∧
    ∃ start locate, ∃ before after : Text, ∃ forms, wholeGroup.outer.Exact wholeGroup start locate ∧
      Forms.Valid forms ∧ wholeGroup.inner.body.text = forms.map (·.2) ∧
      wholeGroup.outer.body.text =
        before ++ wholeGroup.inner.kind.letter :: '"' :: (forms.source ++ ↑ '"' :: after) ∧
      let quote := before.length + 2 + forms.source.length
      d.span = .ofOffsets none wholeGroup (locate before.length) (locate quote + 1) ∧
        locate quote + 1 < locate (quote + 1) := by
  intro d
  obtain ⟨-, -, -, hnested, hrejected⟩ := wholeGroup_reports
  exact ⟨rfl, hnested, hrejected, rfl, nested_spans rfl hnested hrejected rfl⟩

/-- The closing quote of the literal in the group is the character 4 of the outer body. The report
ends before the place of the character 5. -/
theorem nested_spans_short :
    ∃ p d, parseProgram wholeGroup = .ok p ∧ d ∈ (({} : Rewriter).program p).log.diagnostics ∧
      Interpolation.NestedIn wholeGroup wholeGroup.outer wholeGroup.inner ∧
      wholeGroup.inner.RejectedWith {} d ∧ d.code = some Fault.illegalContext.code ∧
      wholeGroup.outer.body.text = (['$', '(', 'i', '"', '"', ')'] : Text) ∧
      wholeGroup.outer.locate 4 = Loc.ofOffset wholeGroup 9 ∧
      wholeGroup.outer.locate 5 = Loc.ofOffset wholeGroup 11 ∧
      d.span = .ofOffsets none wholeGroup 6 10 ∧
      d.span ≠ .between none wholeGroup.inner.loc (wholeGroup.outer.locate 5) := by
  obtain ⟨p, hparse, hmem, hnested, hrejected⟩ := wholeGroup_reports
  exact ⟨p, _, hparse, hmem, hnested, hrejected, rfl, rfl, by decide, by decide, by decide,
    by decide⟩

end Rewriter

end Splice
