import Splice.Proofs.Body.Alike
import Splice.Proofs.Body.Alternation
import Splice.Proofs.Printing.Statements

/-!
# Names without parentheses

A name behind a dollar sign lowers to what it lowers to as a group, if it is no reserved word. A
reserved word is taken for a name only where it stands without parentheses, since the grammar has
no name that is spelled like it.

* `parseExpr_of_isName`: a name is an expression.
* `Interpolation.exists_value`: the value of an insertion among the arguments of its literal.
* `Interpolation.lower_bareName`: a name and the group of it, in the same surroundings.
-/

namespace Splice

/-! ## Names as groups -/

section Names

variable {x : Text}

theorem IsIdentifier.isName (h : IsIdentifier x) (hword : Keyword.ofText? x = none) : IsName x := by
  obtain ⟨c, rest, rfl, hc, hrest⟩ := h
  refine ⟨⟨c, rest, rfl, hc⟩, List.forall_mem_cons.2 ⟨?_, hrest⟩, hword⟩
  rw [isNamePart, hc, Bool.true_or]

theorem IsIdentifier.isGroupText (h : IsIdentifier x) : IsGroupText x := by
  obtain ⟨c, rest, rfl, hc, hrest⟩ := h
  have hplain : ∀ d ∈ c :: rest, Closing.isPlain d = true := by
    refine List.forall_mem_cons.2 ⟨Closing.isPlain_of (by decide) hc, fun d hd => ?_⟩
    exact Closing.isPlain_of (by decide) (hrest d hd)
  rw [isGroupText_iff, Closing.distance_plain hplain, Closing.distance_close_zero]
  exact congrArg Except.ok (Nat.zero_add _)

/-- A name is an expression. -/
theorem parseExpr_of_isName (h : IsName x) : ∃ loc, parseExpr x = .ok (.name loc x) := by
  have hsort : HasSort (fun _ => False) .expr (.name .start x) := .name h
  obtain ⟨text, e, hwrite, hparse, hbare⟩ := parseExpr_writeExpr hsort nofun
  cases hwrite
  obtain ⟨loc, rfl⟩ := Node.bare_eq_name hbare
  exact ⟨loc, hparse⟩

/-- What is parsed as a name is no reserved word. -/
theorem isName_of_parseExpr {raw : Text} {loc : Loc} (h : parseExpr raw = .ok (.name loc x)) :
    IsName x := by
  cases hasSort_of_parseExpr h with
  | name h => exact h

end Names

namespace Insertion

variable {raw : Text}

theorem exprNode_nowhere {e : Node} (he : parseExpr raw = .ok e) (start : Nat) :
    exprNode raw start (some nowhere) e = e.bare := by
  have hmoved : (exprNode raw start (some nowhere) e).bare = exprNode raw start (some nowhere) e :=
    exprNode_moved he start
  exact hmoved.symm.trans (e.bare_mapLoc _)

/-- A name gets the same argument as the group of it. -/
theorem ResolvesAlike.bareName {x : Text} (h : IsName x) (start stop start' stop' : Nat)
    (role : Option Role) (node node' : Node) :
    ResolvesAlike .host (.name x start stop node) (.group x start' stop' role node') := by
  obtain ⟨loc, hx⟩ := parseExpr_of_isName h
  have hgroup := resolveGroup_of_parseExpr (some nowhere) start' stop' hx
  rw [exprNode_nowhere hx] at hgroup
  rw [ResolvesAlike, resolve, resolve, hgroup]
  exact .pure rfl

/-- The parsers of the host grammar give an insertion its node, and a group its role. -/
theorem isClassified_of_resolve {locate : Option Locate} {ins resolved : Insertion}
    (h : (ins.resolve .host locate).run = .ok (.ok resolved)) : resolved.IsClassified := by
  cases ins with
  | name =>
    cases h
    exact nofun
  | group raw start stop =>
    cases (resolveGroup_parsed locate start stop).of_run h with
    | type => exact ⟨nofun, by cases locate <;> nofun⟩
    | expr he =>
      have hsort := hasSort_of_parseExpr he
      refine ⟨nofun, fun hmissing => ?_⟩
      rw [← Node.isMissing_iff] at hmissing
      cases locate with
      | none => exact absurd hmissing (by rw [exprNode, hsort.not_missing]; decide)
      | some locate =>
        rw [exprNode, Node.isMissing_mapLoc, hsort.not_missing] at hmissing
        cases hmissing

end Insertion

/-! ## Values among the arguments -/

theorem Segment.resolve_append (parsers : FragmentParsers) (locate : Option Locate)
    (found later : List Segment) :
    resolve parsers locate (found ++ later) = do
      let before ← resolve parsers locate found
      let behind ← resolve parsers locate later
      return before ++ behind := by
  induction found with
  | nil => simp [resolve]
  | cons segment rest ih =>
    cases segment <;> simp [resolve, ih]

/-- The values of a literal are those of its insertions. -/
theorem filter_of_lowerSegments {segments : List Segment} {kind : InterpolationKind}
    {args : List Argument} (hsegments : ∀ ins, .insertion ins ∈ segments → ins.IsClassified)
    (h : lowerSegments segments kind = .ok args) :
    args.filter Argument.isValue = segments.filterMap Segment.value? := by
  have hclassified : ∀ ins ∈ (Runs.ofSegments segments).insertions, ins.IsClassified :=
    fun ins hins => hsegments ins (Runs.mem_insertions hins)
  cases kind with
  | interspersed =>
    cases (Runs.interspersed_eq hclassified).symm.trans h
    exact Runs.filter_spread_ofSegments segments
  | formatted =>
    cases (Runs.formatted_eq hclassified).symm.trans h
    rw [← Runs.map_value_ofSegments, List.filter_cons_of_neg Bool.false_ne_true,
      List.filter_eq_self]
    simp

/-- An insertion is found without its node, which it gets again. -/
theorem Insertion.exists_unresolved (ins : Insertion) :
    ∃ found, (Segment.insertion ins).unresolved = .insertion found ∧
      ∀ parsers locate, found.resolve parsers locate = ins.resolve parsers locate := by
  cases ins with
  | name => exact ⟨_, rfl, fun _ _ => rfl⟩
  | group => exact ⟨_, rfl, fun _ _ => rfl⟩

section Surroundings

variable {p s : Text} {found : List Segment} {ins ins' : Insertion}

/-- The segments of a body with an insertion in it. -/
theorem segments_insertion (hp : segments p = .ok found)
    (hins : Segment.EscapeAt p.length s (.insertion ins)) :
    ∃ start, segments (p ++ (ins.source ++ s)) =
      (Segment.scan s 0 start start []).map (found ++ (Segment.insertion ins).unresolved :: ·) := by
  rw [← Nat.zero_add p.length] at hins
  exact ⟨_, scan_append_escape hp hins⟩

namespace Interpolation

variable {i i' : Interpolation} {context : Context} {file : Option Text}

/-- Literals with two insertions that resolve alike, in the same surroundings. -/
theorem lower_alike_of_insertions (hp : segments p = .ok found)
    (hins : Segment.EscapeAt p.length s (.insertion ins))
    (hins' : Segment.EscapeAt p.length s (.insertion ins')) (halike : ins.ResolvesAlike .host ins')
    (hi : i.body.text = p ++ (ins.source ++ s)) (hi' : i'.body.text = p ++ (ins'.source ++ s))
    (hkind : i.kind = i'.kind) : LowerAlike context file i i' := by
  obtain ⟨start, hsegments⟩ := segments_insertion hp hins
  obtain ⟨start', hsegments'⟩ := segments_insertion hp hins'
  obtain ⟨escape, hescape, hresolve⟩ := ins.exists_unresolved
  obtain ⟨escape', hescape', hresolve'⟩ := ins'.exists_unresolved
  have hescapes : escape.ResolvesAlike .host escape' := by
    rw [Insertion.ResolvesAlike, hresolve, hresolve']
    exact halike
  refine lower_alike ?_ hkind file
  rw [hi, hi', hsegments, hsegments', hescape, hescape', Attempt.ofRejecting_map,
    Attempt.ofRejecting_map]
  refine (Segment.scan_alike .host s 0 start start start' start' []).map fun later later' h => ?_
  refine List.rel_append ?_ (.cons (.insertion hescapes) h)
  exact List.forall₂_same.2 fun segment _ => .refl .refl segment

/-- The value of an insertion stands behind those of what is before it. -/
theorem exists_value (hp : segments p = .ok found)
    (hins : Segment.EscapeAt p.length s (.insertion ins))
    (hi : i.body.text = p ++ (ins.source ++ s)) {l : Lowering}
    (hl : i.lower context .host file = .ok (.ok l)) :
    ∃ before resolved later,
      (Segment.resolve .host (some nowhere) found).run = .ok (.ok before) ∧
      (ins.resolve .host (some nowhere)).run = .ok (.ok resolved) ∧
      (l.args.map Argument.bare).filter Argument.isValue =
        before.filterMap Segment.value? ++ resolved.value :: later := by
  have hlower : i.bare.lower context .host file = .ok (.ok (l.mapLoc fun _ => .start)) :=
    lower_eq_ok_iff_run.2 ((run_attempt_bare file).2 ⟨l, hl, rfl⟩)
  obtain ⟨-, hresolved, hargs⟩ := lower_eq_ok.1 hlower
  obtain ⟨row, hrow, hresolve⟩ := Attempt.run_bind_eq_ok.1 hresolved
  rw [locate_bare] at hresolve
  have hvalues := filter_of_lowerSegments (fun _ hmem => by
    obtain ⟨_, -, hins⟩ := Segment.exists_of_mem_resolve hresolve hmem
    exact Insertion.isClassified_of_resolve hins) hargs
  -- The row is what was found before the insertion, the insertion, and what is behind it.
  obtain ⟨start, hsegments⟩ := segments_insertion hp hins
  obtain ⟨escape, hescape, hescapeResolve⟩ := ins.exists_unresolved
  have hrow : segments i.bare.body.text = .ok row := Except.ok.inj hrow
  rw [bare, mapLoc, PlacedText.text_map, hi, hsegments, hescape] at hrow
  obtain ⟨later, -, rfl⟩ := exists_of_map_eq_ok hrow
  rw [Segment.resolve_append] at hresolve
  obtain ⟨before, hbefore, hresolve⟩ := Attempt.run_bind_eq_ok.1 hresolve
  obtain ⟨behind, hbehind, hresolve⟩ := Attempt.run_bind_eq_ok.1 hresolve
  obtain ⟨resolved, hins, hbehind⟩ := Attempt.run_bind_eq_ok.1 hbehind
  obtain ⟨after, -, hbehind⟩ := Attempt.run_bind_eq_ok.1 hbehind
  cases hbehind
  rw [hescapeResolve] at hins
  refine ⟨before, resolved, after.filterMap Segment.value?, hbefore, hins, ?_⟩
  have hsegments : before ++ .insertion resolved :: after = (l.mapLoc fun _ => .start).segments :=
    Except.ok.inj (Except.ok.inj hresolve)
  rw [← hsegments, List.filterMap_append] at hvalues
  exact hvalues

/-- A name behind a dollar sign, and the group of it in the same surroundings. If the name is no
reserved word, then it is an expression, and both literals lower or neither of them does. Where both
lower, the arguments are the same up to their places exactly if the name is no reserved word. -/
theorem lower_bareName {x : Text} (hp : segments p = .ok found) (hx : IsIdentifier x)
    (hs : ∀ c ∈ s.head?, isNamePart c = false) (hi : i.body.text = p ++ ↑ '$' :: (x ++ s))
    (hi' : i'.body.text = p ++ ↑ '$' :: ↑ '(' :: (x ++ ↑ ')' :: s)) (hkind : i.kind = i'.kind)
    (context : Context) (file : Option Text) :
    (Keyword.ofText? x = none →
      (∃ loc, parseExpr x = .ok (.name loc x)) ∧
      ((∃ l, i.lower context .host file = .ok (.ok l)) ↔
        ∃ l', i'.lower context .host file = .ok (.ok l'))) ∧
    ∀ l l', i.lower context .host file = .ok (.ok l) →
      i'.lower context .host file = .ok (.ok l') →
      (l.args.map Argument.bare = l'.args.map Argument.bare ↔ Keyword.ofText? x = none) := by
  have hname : Segment.EscapeAt p.length s
      (.insertion (.name x p.length (p.length + (x.length + 1)) .missing)) := .name hx hs
  have hgroup : Segment.EscapeAt p.length s
      (.insertion (.group x p.length (p.length + (x.length + 3)) none .missing)) :=
    .group hx.isGroupText
  rw [← List.singleton_append (x := CodePoint.scalar ')'), ← List.append_assoc] at hi'
  have halike (hword : Keyword.ofText? x = none) : LowerAlike context file i i' :=
    lower_alike_of_insertions hp hname hgroup (.bareName (hx.isName hword) ..) hi hi' hkind
  refine ⟨fun hword => ⟨parseExpr_of_isName (hx.isName hword), (halike hword).lowers⟩,
    fun l l' hl hl' => ⟨fun hargs => ?_, fun hword => (halike hword).args l l' hl hl'⟩⟩
  obtain ⟨before, _, later, hbefore, hins, hvalues⟩ := exists_value hp hname hi hl
  obtain ⟨before', resolved, later', hbefore', hins', hvalues'⟩ := exists_value hp hgroup hi' hl'
  cases hbefore.symm.trans hbefore'
  cases hins
  -- The same values stand before both insertions, so the two have the same value.
  rw [hargs, hvalues'] at hvalues
  obtain ⟨hvalue, -⟩ := List.cons.inj (List.append_cancel_left hvalues)
  cases (Insertion.resolveGroup_parsed (some nowhere) _ _).of_run hins' with
  | type => cases hvalue
  | expr he =>
    rw [Insertion.value, Insertion.exprNode_nowhere he] at hvalue
    obtain ⟨loc, rfl⟩ := Node.bare_eq_name (Argument.value.inj hvalue).2.2
    exact (isName_of_parseExpr he).notReserved

/-- A name between a dollar sign and a point. -/
theorem lower_bareName_point :
    let i : Interpolation := ⟨.start, .formatted, .verbatim ['$', '$', '$', 'x', '.'] ⟨1, 3⟩⟩
    let i' : Interpolation :=
      ⟨.start, .formatted, .verbatim ['$', '$', '$', '(', 'x', ')', '.'] ⟨1, 3⟩⟩
    IsIdentifier ['x'] ∧ (∀ c ∈ (['.'] : Text).head?, isNamePart c = false) ∧
      Keyword.ofText? (['x'] : Text) = none ∧
      ∃ l l', i.lower .callArgument .host none = .ok (.ok l) ∧
        i'.lower .callArgument .host none = .ok (.ok l') ∧
        l.args.map Argument.bare = l'.args.map Argument.bare := by
  intro i i'
  have hx : IsIdentifier ['x'] := ⟨'x', [], rfl, by decide, nofun⟩
  have hs : ∀ c ∈ (['.'] : Text).head?, isNamePart c = false := by
    rintro _ ⟨⟩
    decide
  have hword : Keyword.ofText? (['x'] : Text) = none := by decide
  have hp : segments ['$', '$'] = .ok [.text [] 0 0, .dollar 0 2, .text [] 2 2] := rfl
  have hi : i.body.text = (['$', '$'] : Text) ++ ↑ '$' :: ((['x'] : Text) ++ (['.'] : Text)) := rfl
  have hi' : i'.body.text =
      (['$', '$'] : Text) ++ ↑ '$' :: ↑ '(' :: ((['x'] : Text) ++ ↑ ')' :: (['.'] : Text)) := rfl
  obtain ⟨hlowers, hargs⟩ := lower_bareName hp hx hs hi hi' rfl .callArgument none
  obtain ⟨-, hlowers⟩ := hlowers hword
  obtain ⟨l', hl'⟩ := hlowers.1 ⟨_, rfl⟩
  exact ⟨hx, hs, hword, _, l', rfl, hl', (hargs _ l' rfl hl').2 hword⟩

/-- A reserved word is a name without parentheses, and a constant with them. -/
theorem lower_bareName_reserved :
    let word : Text := (['t', 'r', 'u', 'e'] : Text)
    let i : Interpolation := ⟨.start, .interspersed, .verbatim ('$' :: word) ⟨1, 3⟩⟩
    let i' : Interpolation :=
      ⟨.start, .interspersed, .verbatim ('$' :: '(' :: (word ++ ([')'] : Text))) ⟨1, 3⟩⟩
    segments [] = .ok [.text [] 0 0] ∧ IsIdentifier word ∧
      ∃ l l', i.lower .callArgument .host none = .ok (.ok l) ∧
        i'.lower .callArgument .host none = .ok (.ok l') ∧
        l.args.map Argument.bare = [.value .expression word (.name .start word)] ∧
        l'.args.map Argument.bare = [.value .expression word (.literal .start (.bool true))] ∧
        l.args.map Argument.bare ≠ l'.args.map Argument.bare := by
  intro word i i'
  have hword : IsIdentifier word := by
    refine ⟨'t', ['r', 'u', 'e'], rfl, rfl, ?_⟩
    simp only [List.forall_mem_cons]
    exact ⟨rfl, rfl, rfl, List.forall_mem_nil _⟩
  obtain ⟨loc, he⟩ : ∃ loc, parseExpr word = .ok (.literal loc (.bool true)) := by
    have hsort : HasSort (fun _ => False) .expr (.literal .start (.bool true)) := .literal trivial
    have hpositional : ArePositional [.bool true] := by simp [ArePositional]
    obtain ⟨text, e, hwrite, hparse, hbare⟩ := parseExpr_writeExpr hsort hpositional
    cases hwrite
    cases e <;> cases hbare
    exact ⟨_, hparse⟩
  have hfound : segments i'.body.text =
      .ok [.text [] 0 0, .insertion (.group word 0 7 none .missing), .text [] 7 7] := rfl
  have hgroup := Insertion.resolveGroup_of_parseExpr (some i'.locate) 0 7 he
  have hresolved : (i'.resolved .host).run = .ok (.ok [.text [] 0 0, .insertion (.group word 0 7
      (some .expression) (Insertion.exprNode word 0 (some i'.locate) (.literal loc (.bool true)))),
      .text [] 7 7]) := by
    refine Attempt.run_bind_eq_ok.2 ⟨_, congrArg Except.ok hfound, ?_⟩
    simp only [Segment.resolve, Insertion.resolve, hgroup]
    rfl
  refine ⟨rfl, hword, _, ⟨_, _⟩, rfl, lower_eq_ok.2 ⟨rfl, hresolved, rfl⟩, rfl, rfl, ?_⟩
  intro hargs
  cases hargs

end Interpolation

end Surroundings

end Splice
