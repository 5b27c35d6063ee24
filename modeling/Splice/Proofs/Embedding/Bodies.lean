import Splice.Body.Lower
import Splice.Proofs.Body.Enclosed
import Splice.Proofs.Body.Scanning

/-!
# Bodies that are written for given texts

Any texts with names and groups between them can be written as a body: the dollar signs of the texts
are doubled, and a dollar sign stands before a name and before a group in parentheses. The scan
finds the texts and what stands between them again.

* `embed`: the body for texts and what is embedded between them.
* `Embedded.StandsBefore`: what can be embedded before a text.
* `segments_embed`: the segments of the body.
-/

namespace Splice

/-- What is embedded in a text. -/
inductive Embedded
  | name (ident : Text)
  | group (raw : Text)
deriving DecidableEq, Inhabited

namespace Embedded

/-- How it is written in a body. -/
def source : Embedded → Text
  | name ident => '$' :: ident
  | group raw => ↑ '$' :: ↑ '(' :: raw ++ ([')'] : Text)

/-- The text of a group: an expression or a type of the host grammar without interpolated literals,
whose last lexeme does not take the closing parenthesis with it. -/
structure IsGroup (raw : Text) : Prop where
  parsed : (∃ e, parseExpr raw = .ok e) ∨ ∃ t, parseType raw = .ok t
  literalFree : ∀ token ∈ (Lexed.ofText raw).tokens, token.terminal ≠ .interpolatedLit
  closed : ¬ EndsInLineComment raw

/-- What can be embedded before a text: a name that does not go on in the text, or a group. -/
def StandsBefore (t : Text) : Embedded → Prop
  | name ident => IsIdentifier ident ∧ ∀ c ∈ t.head?, isNamePart c = false
  | group raw => IsGroup raw

end Embedded

/-- The text with its dollar signs doubled. -/
def doubled (t : Text) : Text :=
  t.flatMap fun c : CodePoint => if c = '$' then ['$', '$'] else [c]

/-- What is written behind the first text of a body. -/
def embedRest (rest : List (Embedded × Text)) : Text :=
  rest.flatMap fun (e, t) => e.source ++ doubled t

theorem embedRest_cons (e : Embedded) (t : Text) (rest : List (Embedded × Text)) :
    embedRest ((e, t) :: rest) = e.source ++ (doubled t ++ embedRest rest) :=
  List.append_assoc ..

/-- The body for a text and, behind it, what is embedded before other texts. -/
def embed (first : Text) (rest : List (Embedded × Text)) : Text := doubled first ++ embedRest rest

/-- An insertion that was found for something embedded. -/
def Insertion.IsFor : Insertion → Embedded → Prop
  | .name ident .., .name ident' => ident = ident'
  | .group raw .., .group raw' => raw = raw'
  | _, _ => False

/-- Texts and insertions in turn that belong to given texts and to what is embedded in them. -/
structure Runs.Match (R : Insertion → Embedded → Prop) (runs : Runs) (first : Text)
    (rest : List (Embedded × Text)) : Prop where
  first : runs.first = first
  rest : List.Forall₂ (fun p q => R p.1 q.1 ∧ p.2 = q.2) runs.rest rest

namespace Segment

variable {t l later first : Text} {rest : List (Embedded × Text)}

/-- Whatever stands before it, a text is scanned to segments that belong to given texts. -/
def ScansTo (t first : Text) (rest : List (Embedded × Text)) : Prop :=
  ∀ offset start run, ∃ found, scan t 0 offset start run = .ok found ∧
    (Runs.ofSegments found).Match Insertion.IsFor (run.reverse ++ first) rest

theorem ScansTo.nil : ScansTo [] [] [] := by
  intro offset start run
  exact ⟨_, rfl, ⟨rfl, .nil⟩⟩

theorem ScansTo.doubled (h : ScansTo later first rest) (t : Text) :
    ScansTo (doubled t ++ later) (t ++ first) rest := by
  induction t with
  | nil => exact h
  | cons c t ih =>
    intro offset start run
    by_cases hc : c = '$'
    · subst hc
      have hdollar : ofDollar offset ((['$'] : Text) ++ (Splice.doubled t ++ later)) =
          .ok (.dollar offset (offset + 2), (['$'] : Text).length + 1) := rfl
      obtain ⟨found, hscan, hfound⟩ := ih (offset + 2) (offset + 2) []
      refine ⟨.text run.reverse start offset :: .dollar offset (offset + 2) :: found, ?_,
        ⟨?_, hfound.rest⟩⟩
      · have hescape := scan_escape hdollar start run
        rw [List.length_singleton, hscan] at hescape
        exact hescape
      · simp [Runs.ofSegments, hfound.first]
    · obtain ⟨found, hscan, hfound⟩ := ih (offset + 1) start (c :: run)
      have hdoubled : Splice.doubled (c :: t) = c :: Splice.doubled t := by
        simp [Splice.doubled, hc]
      refine ⟨found, ?_, ?_⟩
      · rw [hdoubled, List.cons_append, scan, if_neg hc]
        exact hscan
      · simpa using hfound

/-- Where a text and what is embedded behind it go on with a part of a name, so does the text. -/
theorem isNamePart_head?_append (ht : ∀ c ∈ t.head?, isNamePart c = false)
    (rest : List (Embedded × Text)) :
    ∀ c ∈ (Splice.doubled t ++ embedRest rest).head?, isNamePart c = false := by
  have hdollar : isNamePart '$' = false := by decide
  cases t with
  | nil =>
    cases rest with
    | nil => nofun
    | cons q rest =>
      obtain ⟨e, t⟩ := q
      cases e <;> rintro _ ⟨⟩ <;> exact hdollar
  | cons c t =>
    by_cases hc : c = '$'
    · subst hc
      rintro _ ⟨⟩
      exact hdollar
    · have hdoubled : Splice.doubled (c :: t) = c :: Splice.doubled t := by
        simp [Splice.doubled, hc]
      rw [hdoubled]
      rintro _ ⟨⟩
      exact ht c rfl

/-- What is embedded in a body is found as an escape. -/
theorem ofDollar_source {e : Embedded} (h : e.StandsBefore t) (rest : List (Embedded × Text))
    (offset : Nat) :
    ∃ ins l, ins.IsFor e ∧ e.source = ↑ '$' :: l ∧
      ofDollar offset (l ++ (Splice.doubled t ++ embedRest rest)) =
        .ok (.insertion ins, l.length + 1) := by
  cases e with
  | name ident =>
    obtain ⟨hident, ht⟩ := h
    have hescape : EscapeAt offset (Splice.doubled t ++ embedRest rest)
        (.insertion (.name ident offset (offset + (ident.length + 1)) .missing)) :=
      .name hident (isNamePart_head?_append ht rest)
    obtain ⟨l, hsource, hfound⟩ := hescape.ofDollar
    refine ⟨_, l, ?_, hsource, hfound⟩
    rfl
  | group raw =>
    have hraw : IsGroupText raw := by
      rw [isGroupText_iff]
      obtain ⟨e, he⟩ | ⟨t, ht⟩ := h.parsed
      · exact @Closing.distance_of_parse .expr _ _ he h.closed []
      · exact @Closing.distance_of_parse .type _ _ ht h.closed []
    have hescape : EscapeAt offset (Splice.doubled t ++ embedRest rest)
        (.insertion (.group raw offset (offset + (raw.length + 3)) none .missing)) := .group hraw
    obtain ⟨l, hsource, hfound⟩ := hescape.ofDollar
    refine ⟨_, l, ?_, hsource, hfound⟩
    rfl

/-- What is embedded before a text is found before it. -/
theorem ScansTo.embedded {e : Embedded} (he : e.StandsBefore t)
    (h : ScansTo (Splice.doubled t ++ embedRest rest) t rest) :
    ScansTo (embedRest ((e, t) :: rest)) [] ((e, t) :: rest) := by
  intro offset start run
  obtain ⟨ins, l, hins, hsource, hescape⟩ := ofDollar_source he rest offset
  obtain ⟨found, hscan, hfound⟩ := h (offset + (l.length + 1)) (offset + (l.length + 1)) []
  refine ⟨.text run.reverse start offset :: .insertion ins :: found, ?_, ⟨?_, ?_⟩⟩
  · have := scan_escape hescape start run
    rw [hscan] at this
    rw [embedRest_cons, hsource]
    exact this
  · rfl
  · exact .cons ⟨hins, hfound.first⟩ hfound.rest

/-- The scan of what is written for texts and what is embedded between them finds these again. -/
theorem scansTo_embed (first : Text) (h : ∀ p ∈ rest, p.1.StandsBefore p.2) :
    ScansTo (embed first rest) first rest := by
  have hrest : ScansTo (embedRest rest) [] rest := by
    induction rest with
    | nil => exact .nil
    | cons p rest ih =>
      obtain ⟨he, hrest⟩ := List.forall_mem_cons.1 h
      have ht := (ih hrest).doubled p.2
      rw [List.append_nil] at ht
      exact .embedded he ht
  have := hrest.doubled first
  rwa [List.append_nil] at this

end Segment

/-- The segments of a body that is written for texts with names and groups between them belong to
these. -/
theorem segments_embed (first : Text) {rest : List (Embedded × Text)}
    (h : ∀ p ∈ rest, p.1.StandsBefore p.2) :
    ∃ found, segments (embed first rest) = .ok found ∧
      (Runs.ofSegments found).Match Insertion.IsFor first rest :=
  Segment.scansTo_embed first h 0 0 []

end Splice
