import Mathlib.Data.List.Chain
import Splice.Proofs.Body.Lowering

/-!
# Texts and values in turn

The same segments lower to two argument lists. In the one of an interspersed literal, texts and
values stand as the segments do, with what is between two insertions joined to one text. The one of
a format string has the same texts, joined to one, and then the same values.

* `Insertion.IsClassified`: what resolving gives an insertion.
* `Runs.spread`: the argument list of an interspersed literal.
* `Runs.interspersed_eq`, `Runs.formatted_eq`: the two argument lists.
* `Runs.splitOnP_spread`: the texts between the values.
* `lowerSegments_agree`: these together.
-/

namespace Splice

/-! ## What segments and arguments stand for -/

namespace Argument

/-- The text of an argument. A value has none. -/
def content : Argument → Text
  | text t => t
  | value _ _ _ => []

/-- Whether the argument is a value. -/
def isValue : Argument → Bool
  | value _ _ _ => true
  | text _ => false

@[simp] theorem content_ofText? (t : Text) : (ofText? t).flatMap content = t := by
  unfold ofText?
  split
  next h => rw [h]; rfl
  next => exact List.append_nil t

@[simp] theorem filter_ofText? (t : Text) : (ofText? t).filter isValue = [] := by
  unfold ofText?
  split <;> rfl

@[simp] theorem text_nil_not_mem_ofText? (t : Text) : .text [] ∉ ofText? t := by
  unfold ofText?
  split
  next => exact List.not_mem_nil
  next h => simpa using Ne.symm h

theorem isChain_ofText? (R : Argument → Argument → Prop) (t : Text) : (ofText? t).IsChain R := by
  unfold ofText?
  split
  next => exact .nil
  next => exact .singleton _

theorem isValue_eq_false_of_mem_ofText? {t : Text} {a : Argument} (h : a ∈ ofText? t) :
    a.isValue = false := by
  have hnone : a ∉ (ofText? t).filter isValue := by simp
  exact Bool.eq_false_iff.2 fun ha => hnone (List.mem_filter.2 ⟨h, ha⟩)

end Argument

namespace Insertion

/-- The insertion has its node, and its role if it is a group. -/
def IsClassified : Insertion → Prop
  | name _ _ _ node => node ≠ .missing
  | group _ _ _ role node => role ≠ none ∧ node ≠ .missing

/-- The role, the source and the node of an insertion as an argument. A name is an expression. -/
def value : Insertion → Argument
  | name ident _ _ node => .value .expression ident node
  | group raw _ _ role node => .value (role.getD .expression) raw node

@[simp] theorem isValue_value (ins : Insertion) : ins.value.isValue = true := by
  cases ins <;> rfl

@[simp] theorem content_value (ins : Insertion) : ins.value.content = [] := by
  cases ins <;> rfl

theorem argument_eq_ok {ins : Insertion} (h : ins.IsClassified) : ins.argument = .ok ins.value := by
  cases ins with
  | name ident start stop node => exact if_neg fun hmissing => h (Node.isMissing_iff.1 hmissing)
  | group raw start stop role node =>
    obtain ⟨hrole, hnode⟩ := h
    obtain ⟨role, rfl⟩ := Option.ne_none_iff_exists'.1 hrole
    exact if_neg fun hmissing => hnode (Node.isMissing_iff.1 hmissing)

end Insertion

namespace Segment

/-- The text that a segment stands for. An insertion stands for none. -/
def content : Segment → Text
  | text t _ _ => t
  | dollar _ _ => ['$']
  | insertion _ => []

/-- Whether the segment is an insertion. -/
def isInsertion : Segment → Bool
  | insertion _ => true
  | text _ _ _ | dollar _ _ => false

/-- The value that an insertion stands for. -/
def value? : Segment → Option Argument
  | insertion ins => some ins.value
  | text _ _ _ | dollar _ _ => none

end Segment

/-! ## Runs -/

namespace Runs

/-- The values of a row of segments are those of its insertions. -/
theorem map_value_ofSegments (segments : List Segment) :
    (ofSegments segments).insertions.map Insertion.value = segments.filterMap Segment.value? := by
  induction segments with
  | nil => rfl
  | cons segment rest ih =>
    cases segment with
    | insertion ins => exact congrArg (ins.value :: ·) ih
    | text | dollar => exact ih

/-- The texts of a row of segments are what stands between its insertions. -/
theorem texts_ofSegments (segments : List Segment) :
    (ofSegments segments).texts =
      (segments.splitOnP Segment.isInsertion).map (·.flatMap Segment.content) := by
  induction segments with
  | nil => rfl
  | cons segment rest ih =>
    rw [List.splitOnP_cons_eq_if_modifyHead]
    obtain ⟨piece, pieces, hsplit⟩ :=
      List.exists_cons_of_ne_nil (List.splitOnP_ne_nil Segment.isInsertion rest)
    rw [hsplit] at ih ⊢
    obtain ⟨hfirst, hlater⟩ := List.cons.inj ih
    cases segment with
    | insertion ins => exact congrArg ([] :: ·) ih
    | text | dollar =>
      simp [texts, ofSegments, Segment.isInsertion, Segment.content, hfirst, hlater]

/-- The texts and the values in turn, without the texts that are empty. -/
def spread (runs : Runs) : List Argument :=
  Argument.ofText? runs.first ++ runs.rest.flatMap fun (i, t) => i.value :: Argument.ofText? t

theorem spread_cons (first t : Text) (i : Insertion) (rest : List (Insertion × Text)) :
    spread ⟨first, (i, t) :: rest⟩ = Argument.ofText? first ++ i.value :: spread ⟨t, rest⟩ := rfl

theorem interspersed_eq {runs : Runs} (h : ∀ ins ∈ runs.insertions, ins.IsClassified) :
    runs.interspersed = .ok runs.spread := by
  obtain ⟨first, rest⟩ := runs
  have hrest : interspersedRest rest =
      .ok (rest.flatMap fun (i, t) => i.value :: Argument.ofText? t) := by
    induction rest with
    | nil => rfl
    | cons p rest ih =>
      obtain ⟨hfirst, hlater⟩ := List.forall_mem_cons.1 h
      rw [interspersedRest, Insertion.argument_eq_ok hfirst, ih hlater]
      rfl
  rw [interspersed, hrest]
  rfl

theorem formatted_eq {runs : Runs} (h : ∀ ins ∈ runs.insertions, ins.IsClassified) :
    runs.formatted = .ok (.text runs.texts.flatten :: runs.insertions.map Insertion.value) := by
  have hvalues : runs.insertions.mapM Insertion.argument =
      .ok (runs.insertions.map Insertion.value) := by
    generalize runs.insertions = insertions at h
    induction insertions with
    | nil => rfl
    | cons ins rest ih =>
      obtain ⟨hfirst, hlater⟩ := List.forall_mem_cons.1 h
      rw [List.mapM_cons, Insertion.argument_eq_ok hfirst, ih hlater]
      rfl
  rw [formatted, hvalues]
  rfl

theorem filter_spread (runs : Runs) :
    runs.spread.filter Argument.isValue = runs.insertions.map Insertion.value := by
  obtain ⟨first, rest⟩ := runs
  induction rest generalizing first with
  | nil => simp [spread, insertions]
  | cons p rest ih =>
    obtain ⟨i, t⟩ := p
    simpa [spread_cons, insertions] using ih t

/-- The values among the arguments are those of the insertions. -/
theorem filter_spread_ofSegments (segments : List Segment) :
    (ofSegments segments).spread.filter Argument.isValue = segments.filterMap Segment.value? := by
  rw [filter_spread, map_value_ofSegments]

theorem content_spread (runs : Runs) :
    runs.spread.flatMap Argument.content = runs.texts.flatten := by
  obtain ⟨first, rest⟩ := runs
  induction rest generalizing first with
  | nil => simp [spread, texts]
  | cons p rest ih =>
    obtain ⟨i, t⟩ := p
    simpa [spread_cons, texts] using ih t

/-- Between the values stand the texts that are not empty. -/
theorem splitOnP_spread (runs : Runs) :
    runs.spread.splitOnP Argument.isValue = runs.texts.map Argument.ofText? := by
  obtain ⟨first, rest⟩ := runs
  have hplain (t : Text) : ∀ a ∈ Argument.ofText? t, a.isValue = false :=
    fun _ => Argument.isValue_eq_false_of_mem_ofText?
  induction rest generalizing first with
  | nil =>
    rw [spread, List.flatMap_nil, List.append_nil]
    exact List.splitOnP_eq_singleton (hplain first)
  | cons p rest ih =>
    obtain ⟨i, t⟩ := p
    rw [spread_cons, List.splitOnP_append_cons _ _ i.isValue_value,
      List.splitOnP_eq_singleton (hplain first), ih]
    rfl

theorem text_nil_not_mem_spread (runs : Runs) : .text [] ∉ runs.spread := by
  obtain ⟨first, rest⟩ := runs
  induction rest generalizing first with
  | nil => simp [spread]
  | cons p rest ih =>
    obtain ⟨i, t⟩ := p
    have hvalue : .text [] ≠ i.value := by cases i <;> nofun
    simp [spread_cons, hvalue, ih t]

/-- Texts stand alone between values. -/
theorem isChain_spread (runs : Runs) :
    runs.spread.IsChain fun a b => a.isValue = true ∨ b.isValue = true := by
  obtain ⟨first, rest⟩ := runs
  induction rest generalizing first with
  | nil =>
    rw [spread, List.flatMap_nil, List.append_nil]
    exact Argument.isChain_ofText? _ first
  | cons p rest ih =>
    obtain ⟨i, t⟩ := p
    rw [spread_cons]
    refine List.isChain_append.2 ⟨Argument.isChain_ofText? _ first, ?_, ?_⟩
    · exact List.isChain_cons.2 ⟨fun _ _ => .inl i.isValue_value, ih t⟩
    · rintro a - b hb
      cases hb
      exact .inr i.isValue_value

end Runs

/-! ## Both argument lists -/

/-- Resolved segments lower to both argument lists. In the one of an interspersed literal no text is
empty, and no two stand side by side. Its values are those of the insertions, in their order, and
what stands before, between and behind them is what the segments there stand for, joined to one
text. The one of a format string is these texts, joined to one, and then the same values. -/
theorem lowerSegments_agree {segments : List Segment}
    (h : ∀ ins, .insertion ins ∈ segments → ins.IsClassified) :
    ∃ spread, lowerSegments segments .interspersed = .ok spread ∧
      .text [] ∉ spread ∧ spread.IsChain (fun a b => a.isValue = true ∨ b.isValue = true) ∧
      spread.filter Argument.isValue = segments.filterMap Segment.value? ∧
      spread.splitOnP Argument.isValue = (segments.splitOnP Segment.isInsertion).map
        (fun between => Argument.ofText? (between.flatMap Segment.content)) ∧
      lowerSegments segments .formatted =
        .ok (.text (spread.flatMap Argument.content) :: spread.filter Argument.isValue) := by
  have hclassified : ∀ ins ∈ (Runs.ofSegments segments).insertions, ins.IsClassified :=
    fun ins hins => h ins (Runs.mem_insertions hins)
  refine ⟨(Runs.ofSegments segments).spread, Runs.interspersed_eq hclassified,
    Runs.text_nil_not_mem_spread _, Runs.isChain_spread _, Runs.filter_spread_ofSegments _, ?_, ?_⟩
  · rw [Runs.splitOnP_spread, Runs.texts_ofSegments, List.map_map]
    rfl
  · rw [Runs.content_spread, Runs.filter_spread]
    exact Runs.formatted_eq hclassified

/-- Texts side by side and an empty one, around a name and a type. -/
theorem lowerSegments_agree_type :
    let segments : List Segment :=
      [.text ['a'] 0 1, .dollar 1 3, .insertion (.name ['x'] 3 5 (.name ⟨1, 7⟩ ['x'])),
        .text [] 5 5, .insertion (.group ['T'] 5 9 (some .type)
          (.typeArg ⟨1, 10⟩ (.namedType ⟨1, 10⟩ ['T']))), .dollar 9 11]
    (∀ ins, .insertion ins ∈ segments → ins.IsClassified) ∧
    ∃ spread, lowerSegments segments .interspersed = .ok spread ∧
      .text [] ∉ spread ∧ spread.IsChain (fun a b => a.isValue = true ∨ b.isValue = true) ∧
      spread.filter Argument.isValue = segments.filterMap Segment.value? ∧
      spread.splitOnP Argument.isValue = (segments.splitOnP Segment.isInsertion).map
        (fun between => Argument.ofText? (between.flatMap Segment.content)) ∧
      lowerSegments segments .formatted =
        .ok (.text (spread.flatMap Argument.content) :: spread.filter Argument.isValue) := by
  intro segments
  have hclassified : ∀ ins, .insertion ins ∈ segments → ins.IsClassified := by
    intro ins hins
    simp only [segments, List.mem_cons, Segment.insertion.injEq, reduceCtorEq, false_or, or_false,
      List.not_mem_nil] at hins
    rcases hins with rfl | rfl
    · exact nofun
    · exact ⟨nofun, nofun⟩
  exact ⟨hclassified, lowerSegments_agree hclassified⟩

end Splice
