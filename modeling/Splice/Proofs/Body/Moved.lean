import Mathlib.Data.List.Forall2
import Splice.Proofs.Body.Lowering
import Splice.Proofs.Body.Rejecting
import Splice.Proofs.Lexing.Moved
import Splice.Proofs.Phrase.Parsed
import Splice.Proofs.Phrase.Parts

/-!
# Literals that stand elsewhere

What a literal lowers to, or why it is rejected, does not depend on where it stands, except that the
places in it do: those of the nodes that come out of its groups, and those that a report names.

* `Phrase.everywhere_standsIn`: the places of the tree of a text.
* `Insertion.resolveGroup_moved`: a group of a literal that is moved.
* `Diagnostic.IsMoved`: a report at another place.
* `Interpolation.lower_moved`: a literal that is moved.
-/

namespace Splice

/-! ## Groups -/

section Groups

variable {f : Loc → Loc} {locate : Locate} {raw : Text}

/-- The places of the characters of a text, and of its end. -/
def Loc.StandsIn (raw : Text) (loc : Loc) : Prop := ∃ k ≤ raw.length, loc = Loc.ofOffset raw k

theorem Insertion.place_comp {loc : Loc} (h : loc.StandsIn raw) (start : Nat) :
    f (place raw start locate loc) = place raw start (f ∘ locate) loc := by
  obtain ⟨k, hk, rfl⟩ := h
  rw [place_ofOffset hk, place_ofOffset hk]
  rfl

theorem Token.loc_standsIn {token : Token} (h : token ∈ (Lexed.ofText raw).tokens) :
    token.loc.StandsIn raw :=
  ⟨token.offset, Token.loc_eq_ofOffset h⟩

/-- The tree of a text has the places of the text. -/
theorem Phrase.everywhere_standsIn {c : Category} {n : Node}
    (h : Phrase c (Lexed.ofText raw).tokens n) : n.Everywhere (·.StandsIn raw) := by
  constructor
  · intro part hpart loc hloc
    obtain ⟨c, token, rest, hinside, -, rfl⟩ := h.part_begins hpart loc hloc
    exact Token.loc_standsIn (hinside.subset List.mem_cons_self)
  · intro i hi loc hloc
    obtain ⟨c, token, rest, hinside, hphrase, -⟩ := h.part_begins hi i.loc rfl
    obtain ⟨literal, hmem, hkind, hvalue⟩ := hphrase.token_of_interpolation
    obtain ⟨hlaidOut, -⟩ :=
      Interpolation.standsIn_of_mem literal (hinside.subset hmem) hkind i hvalue
    obtain ⟨offset, offsets, -, hpositions, -, hstop⟩ := hlaidOut
    rw [hpositions] at hloc
    obtain ⟨k, hk, rfl⟩ := List.mem_map.1 hloc
    exact ⟨k, hstop k (List.mem_cons_of_mem _ hk), rfl⟩

/-- What comes out of the text of a group stands in the text, before it is moved to the group. -/
theorem Phrase.mapLoc_place {c : Category} {n : Node} (h : Phrase c (Lexed.ofText raw).tokens n)
    (start : Nat) : (n.mapLoc (Insertion.place raw start locate)).mapLoc f =
      n.mapLoc (Insertion.place raw start (f ∘ locate)) := by
  rw [Node.mapLoc_mapLoc]
  exact Node.mapLoc_congr (h.everywhere_standsIn.imp fun loc hloc =>
    Insertion.place_comp hloc start)

theorem Insertion.typeNode_moved {t : Node} (ht : parseType raw = .ok t) (start : Nat) :
    (typeNode raw start (some locate) t).mapLoc f = typeNode raw start (some (f ∘ locate)) t := by
  have htree : Phrase (.type false) _ t := ((@parse_eq_ok_iff_isTree .type raw t).1 ht).2
  rw [typeNode, typeNode, Node.mapLoc, htree.mapLoc_place]
  rfl

theorem Insertion.exprNode_moved {e : Node} (he : parseExpr raw = .ok e) (start : Nat) :
    (exprNode raw start (some locate) e).mapLoc f = exprNode raw start (some (f ∘ locate)) e := by
  have htree : Phrase .expr _ e := ((@parse_eq_ok_iff_isTree .expr raw e).1 he).2
  exact htree.mapLoc_place start

/-- The insertion with every location of its node mapped. -/
def Insertion.mapLoc (f : Loc → Loc) : Insertion → Insertion
  | name ident start stop node => name ident start stop (node.mapLoc f)
  | group raw start stop role node => group raw start stop role (node.mapLoc f)

theorem FragmentParse.of_covers {x : Except ParseError Node} {p : FragmentParse}
    (hp : ofResult raw x = .ok p) (hcovers : p.covers raw = true) : x = .ok p.node := by
  have h : (Attempt.ofFailing (ofResult raw x)).run = .ok (.ok p) := by
    rw [hp]
    rfl
  exact yields_ofResult.of_run h hcovers

/-- A group of a literal that is moved. -/
theorem Insertion.resolveGroup_moved (start stop : Nat) :
    resolveGroup .host (some (f ∘ locate)) raw start stop =
      Insertion.mapLoc f <$> resolveGroup .host (some locate) raw start stop := by
  have ok {α : Type} (a : α) : Attempt.ofFailing (.ok a) = pure a := rfl
  unfold resolveGroup
  cases htype : FragmentParsers.host.type raw with
  | error => rfl
  | ok asType =>
    cases hexpr : FragmentParsers.host.expr raw with
    | error => rfl
    | ok asExpr =>
      simp only [ok, pure_bind]
      split
      next hcovers =>
        rw [Bool.and_eq_true] at hcovers
        rw [map_pure, mapLoc, typeNode_moved (FragmentParse.of_covers htype hcovers.1)]
      next =>
        split
        next hcovers =>
          rw [map_pure, mapLoc, exprNode_moved (FragmentParse.of_covers hexpr hcovers)]
        next => rfl

/-- A name or a group of a literal that is moved. -/
theorem Insertion.resolve_moved (ins : Insertion) :
    ins.resolve .host (some (f ∘ locate)) =
      Insertion.mapLoc f <$> ins.resolve .host (some locate) := by
  cases ins with
  | name => rfl
  | group raw start stop => exact resolveGroup_moved start stop

end Groups

/-! ## Segments -/

/-- The segment with every location of its node mapped. -/
def Segment.mapLoc (f : Loc → Loc) : Segment → Segment
  | insertion ins => insertion (ins.mapLoc f)
  | segment => segment

/-- The argument with every location of its node mapped. -/
def Argument.mapLoc (f : Loc → Loc) : Argument → Argument
  | value role source node => value role source (node.mapLoc f)
  | argument => argument

/-- The segments and the arguments with every location of their nodes mapped. -/
def Lowering.mapLoc (f : Loc → Loc) (l : Lowering) : Lowering :=
  ⟨l.segments.map (Segment.mapLoc f), l.args.map (Argument.mapLoc f)⟩

section Segments

variable {f : Loc → Loc} {locate : Locate}

/-- The segments of a literal that is moved. -/
theorem Segment.resolve_moved (found : List Segment) :
    resolve .host (some (f ∘ locate)) found =
      List.map (Segment.mapLoc f) <$> resolve .host (some locate) found := by
  induction found with
  | nil => rfl
  | cons segment rest ih =>
    cases segment with
    | insertion ins =>
      simp only [resolve, Insertion.resolve_moved, ih, map_bind, bind_map_left, map_pure,
        List.map_cons, mapLoc]
    | text | dollar =>
      simp only [resolve, ih, map_bind, bind_map_left, map_pure, List.map_cons, mapLoc]

theorem Insertion.argument_moved (ins : Insertion) :
    (ins.mapLoc f).argument = ins.argument.map (Argument.mapLoc f) := by
  cases ins with
  | name ident start stop node =>
    simp only [mapLoc, argument, Node.isMissing_mapLoc]
    split <;> rfl
  | group raw start stop role node =>
    cases role with
    | none => rfl
    | some role =>
      simp only [mapLoc, argument, Node.isMissing_mapLoc]
      split <;> rfl

theorem Argument.ofText?_moved (t : Text) : (ofText? t).map (mapLoc f) = ofText? t := by
  unfold ofText?
  split <;> rfl

/-- The runs with every location of the nodes mapped. -/
def Runs.mapLoc (f : Loc → Loc) (runs : Runs) : Runs :=
  ⟨runs.first, runs.rest.map fun p => (p.1.mapLoc f, p.2)⟩

theorem Runs.ofSegments_moved (found : List Segment) :
    ofSegments (found.map (Segment.mapLoc f)) = (ofSegments found).mapLoc f := by
  induction found with
  | nil => rfl
  | cons segment rest ih =>
    cases segment <;> simp [Segment.mapLoc, ofSegments, ih, mapLoc]

theorem Runs.interspersedRest_moved (rest : List (Insertion × Text)) :
    interspersedRest (rest.map fun p => (p.1.mapLoc f, p.2)) =
      (interspersedRest rest).map (List.map (Argument.mapLoc f)) := by
  induction rest with
  | nil => rfl
  | cons p rest ih =>
    obtain ⟨ins, t⟩ := p
    simp only [List.map_cons, interspersedRest, Insertion.argument_moved, ih]
    cases ins.argument with
    | error => rfl
    | ok argument =>
      cases interspersedRest rest with
      | error => rfl
      | ok later => simp [Except.map, bind, Except.bind, pure, Except.pure, Argument.ofText?_moved]

theorem Insertion.mapM_argument_moved (insertions : List Insertion) :
    (insertions.map (Insertion.mapLoc f)).mapM argument =
      (insertions.mapM argument).map (List.map (Argument.mapLoc f)) := by
  induction insertions with
  | nil => rfl
  | cons ins rest ih =>
    simp only [List.map_cons, List.mapM_cons, argument_moved, ih]
    cases ins.argument with
    | error => rfl
    | ok argument => cases rest.mapM Insertion.argument <;> rfl

theorem lowerSegments_moved (found : List Segment) (kind : InterpolationKind) :
    lowerSegments (found.map (Segment.mapLoc f)) kind =
      (lowerSegments found kind).map (List.map (Argument.mapLoc f)) := by
  rw [lowerSegments, lowerSegments, Runs.ofSegments_moved]
  generalize Runs.ofSegments found = runs
  cases kind with
  | interspersed =>
    simp only [Runs.arguments, Runs.interspersed, Runs.mapLoc, Runs.interspersedRest_moved]
    cases Runs.interspersedRest runs.rest with
    | error => rfl
    | ok later => simp [Except.map, bind, Except.bind, pure, Except.pure, Argument.ofText?_moved]
  | formatted =>
    have hinsertions : (runs.mapLoc f).insertions = runs.insertions.map (Insertion.mapLoc f) := by
      simp [Runs.insertions, Runs.mapLoc, Function.comp_def]
    have htexts : (runs.mapLoc f).texts = runs.texts := by
      simp [Runs.texts, Runs.mapLoc, Function.comp_def]
    simp only [Runs.arguments, Runs.formatted, hinsertions, htexts,
      Insertion.mapM_argument_moved]
    cases runs.insertions.mapM Insertion.argument <;> rfl

end Segments

/-! ## Reports -/

/-- The note that says where an escape starts. -/
def escapeNote (loc : Loc) : Text :=
  "escape starts at " ++ toString loc.line ++ ":" ++ toString loc.column

/-- A note stays, unless it says where an escape starts. -/
inductive NoteMoved (f : Loc → Loc) : Text → Text → Prop
  | escape (loc : Loc) : NoteMoved f (escapeNote loc) (escapeNote (f loc))
  | other {note : Text} (h : ∀ loc, note ≠ escapeNote loc) : NoteMoved f note note

/-- A report says the same at another place. -/
structure Diagnostic.IsMoved (f : Loc → Loc) (d d' : Diagnostic) : Prop where
  message : d'.message = d.message
  code : d'.code = d.code
  phase : d'.phase = d.phase
  severity : d'.severity = d.severity
  span : ∃ file first stop, d.span = .between file first stop ∧
    d'.span = .between file (f first) (f stop)
  notes : List.Forall₂ (NoteMoved f) d.notes d'.notes

theorem Text.head?_append {s : Text} {c : CodePoint} (h : s.head? = some c) (t : Text) :
    (s ++ t).head? = some c := by
  rw [List.head?_append, h]
  rfl

theorem head?_escapeNote (loc : Loc) : (escapeNote loc).head? = some ↑ 'e' :=
  Text.head?_append (Text.head?_append (Text.head?_append (by decide) _) _) _

/-- What the parsers say about a group names no place of the source. -/
theorem Insertion.ne_escapeNote_of_mem_notes {raw : Text} {asType asExpr : FragmentParse}
    {note : Text} (h : note ∈ notes raw asType asExpr) (loc : Loc) : note ≠ escapeNote loc := by
  have hfirst : note.head? = some ↑ 'a' := by
    have hexpr (t : Text) : ("as an expression: " ++ t).head? = some ↑ 'a' :=
      Text.head?_append (by decide) t
    have hbehind (t : Text) :
        ("as an expression: unexpected text after offset " ++ t).head? = some ↑ 'a' :=
      Text.head?_append (by decide) t
    have htype (t : Text) : ("as a type: " ++ t).head? = some ↑ 'a' :=
      Text.head?_append (by decide) t
    rcases List.mem_append.1 h with h | h
    · split at h
      · split at h
        · cases h
        · rw [List.mem_singleton.1 h]
          exact hbehind _
      · split at h
        · cases h
        · rw [List.mem_singleton.1 h]
          exact hbehind _
      · rw [List.mem_singleton.1 h]
        exact hexpr _
    · split at h
      · cases h
      · cases h
      · rw [List.mem_singleton.1 h]
        exact htype _
  rintro rfl
  rw [head?_escapeNote] at hfirst
  cases hfirst

namespace Interpolation

variable {f : Loc → Loc} {i : Interpolation}

theorem locate_mapLoc (f : Loc → Loc) (i : Interpolation) : (i.mapLoc f).locate = f ∘ i.locate := by
  funext offset
  simp only [locate, PlacedText.locate, mapLoc, PlacedText.map, List.getElem?_map,
    Function.comp_apply]
  cases i.body.chars[offset.toNat]? <;> rfl

theorem stop_mapLoc (hf : Loc.IsMove f) (i : Interpolation) :
    (i.mapLoc f).stop = f i.stop := (hf.right i.body.stop 1).symm

theorem span_moved (hf : Loc.IsMove f) (i : Interpolation)
    (file : Option Text) (start stop : Option Int) :
    ∃ first last, i.span file start stop = .between file first last ∧
      (i.mapLoc f).span file start stop = .between file (f first) (f last) := by
  have hlength : (i.mapLoc f).body.chars.length = i.body.chars.length := List.length_map _
  cases start with
  | none => exact ⟨_, _, rfl, by rw [span, stop_mapLoc hf]; rfl⟩
  | some first =>
    refine ⟨_, _, rfl, ?_⟩
    simp only [span, hlength, locate_mapLoc, stop_mapLoc hf, Function.comp_apply, apply_ite f]

/-- The report of a rejection whose notes name no place of the source. -/
theorem diagnostic_moved (hf : Loc.IsMove f) (i : Interpolation)
    (file : Option Text) {r : Rejection}
    (hnotes : ∀ note ∈ r.notes, ∀ loc, note ≠ escapeNote loc) :
    (i.diagnostic file r).IsMoved f ((i.mapLoc f).diagnostic file r) := by
  have hsame : List.Forall₂ (NoteMoved f) r.notes r.notes :=
    List.forall₂_same.2 fun note hnote => .other (hnotes note hnote)
  obtain ⟨first, last, hspan, hspan'⟩ := i.span_moved hf file r.start r.stop
  refine ⟨rfl, rfl, rfl, rfl, ⟨file, first, last, hspan, hspan'⟩, ?_⟩
  rw [diagnostic, diagnostic, locate_mapLoc]
  cases r.anchor with
  | none => exact hsame
  | some offset => exact .cons (.escape (i.locate offset)) hsame

end Interpolation

theorem Attempt.ofFailing_map {α β : Type} (g : α → β) (x : Except Failure α) :
    Attempt.ofFailing (x.map g) = g <$> Attempt.ofFailing x := by
  cases x <;> rfl

namespace Interpolation

variable {f : Loc → Loc} {i : Interpolation}

theorem attempt_moved (f : Loc → Loc) (i : Interpolation) (context : Context) :
    (i.mapLoc f).attempt context .host = Lowering.mapLoc f <$> i.attempt context .host := by
  have htext : (i.mapLoc f).body.text = i.body.text := PlacedText.text_map f i.body
  have hkind : (i.mapLoc f).kind = i.kind := rfl
  simp only [attempt, htext, hkind, locate_mapLoc, Segment.resolve_moved, lowerSegments_moved,
    Attempt.ofFailing_map, map_bind, bind_map_left, map_pure, Lowering.mapLoc]

/-- The notes of a rejection name no place of the source. -/
theorem attempt_notes (i : Interpolation) (context : Context) (parsers : FragmentParsers) :
    (i.attempt context parsers).Rejects fun r =>
      ∀ note ∈ r.notes, ∀ loc, note ≠ escapeNote loc := by
  rw [attempt_eq]
  refine Attempt.Rejects.bind (fun r hr => ?_) fun resolved r hr => ?_
  · obtain hnone | ⟨raw, asType, asExpr, hnotes⟩ := (i.resolved_rejects parsers r hr).notes
    · rw [hnone]
      nofun
    · rw [hnotes]
      exact fun note hnote => Insertion.ne_escapeNote_of_mem_notes hnote
  · obtain ⟨-, rfl⟩ := i.admitted_rejects context resolved r hr
    nofun

/-- A literal that is moved lowers to the same, moved with it, or is reported there. -/
theorem lower_moved (hf : Loc.IsMove f) (i : Interpolation)
    (context : Context) (file : Option Text) :
    match i.lower context .host file with
    | .ok (.ok lowering) =>
      (i.mapLoc f).lower context .host file = .ok (.ok (lowering.mapLoc f))
    | .ok (.error d) =>
      ∃ d', (i.mapLoc f).lower context .host file = .ok (.error d') ∧ d.IsMoved f d'
    | .error failure => (i.mapLoc f).lower context .host file = .error failure := by
  have hnotes := i.attempt_notes context .host
  unfold Attempt.Rejects at hnotes
  rw [lower, lower, attempt_moved, ExceptT.run_map]
  rcases hrun : (i.attempt context .host).run with failure | r | lowering
  · rfl
  · exact ⟨_, rfl, i.diagnostic_moved hf file (hnotes r hrun)⟩
  · rfl

end Interpolation

end Splice
