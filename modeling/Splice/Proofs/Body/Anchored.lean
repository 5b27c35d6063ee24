import Splice.Proofs.Body.Moved
import Splice.Proofs.Body.Positions
import Splice.Proofs.Phrase.Moved

/-!
# Two ways to place a fragment

The tree of a group's text is moved to where the group stands by way of the offsets of the body, so
that escapes in the literal are accounted for. A fragment with an origin is moved by lines and
columns. In a body that stands in the source as it is, both give the same tree.

* `Loc.within_within`, `Node.relocate_relocate`: moving a tree twice.
* `Insertion.place_verbatim`: a place in the text of a group, in a body that stands as it is.
* `Insertion.resolve_verbatim`: the node of a group is that of the fragment at the group's origin.
-/

namespace Splice

/-! ## Moving a tree twice -/

theorem Loc.start_within (origin : Loc) : start.within origin = origin := by
  obtain ⟨line, column⟩ := origin
  simp only [within, start, if_true, mk.injEq, true_and]
  omega

/-- A fragment in a fragment is moved with it. Only lines that are counted from one matter. -/
theorem Loc.within_within {loc origin : Loc} (hloc : 1 ≤ loc.line) (horigin : 1 ≤ origin.line)
    (outer : Loc) : (loc.within origin).within outer = loc.within (origin.within outer) := by
  by_cases hfirst : loc.line = 1
  · by_cases hfirst' : origin.line = 1
    · simp only [within, hfirst, hfirst', if_true, mk.injEq, true_and]
      omega
    · simp only [within, hfirst, hfirst', if_true, if_false]
  · have hbelow : origin.line + loc.line - 1 ≠ 1 := by omega
    by_cases hfirst' : origin.line = 1
    · simp only [within, hfirst, hfirst', if_true, if_false]
      rw [if_neg (by omega)]
      simp only [mk.injEq, and_true]
      omega
    · simp only [within, hfirst, hfirst', hbelow, if_false, mk.injEq, and_true]
      omega

theorem Node.relocate_relocate {n : Node} (h : n.Everywhere (1 ≤ ·.line)) {origin : Loc}
    (horigin : 1 ≤ origin.line) (outer : Loc) :
    (n.relocate origin).relocate outer = n.relocate (origin.within outer) := by
  unfold relocate
  rw [mapLoc_mapLoc]
  exact mapLoc_congr (h.imp fun loc hloc => Loc.within_within hloc horigin outer)

/-! ## Groups in a body that stands as it is -/

/-- A literal has the places of a body that stands in the source as it is, from `start` on. -/
def Interpolation.IsVerbatim (i : Interpolation) (body : Text) (start : Loc) : Prop :=
  i.body.positions = (PlacedText.verbatim body start).positions

section Verbatim

variable {i : Interpolation} {body raw : Text} {start : Loc} {found : List Segment}
  {first stop : Nat} {role : Option Role} {node : Node}

theorem Interpolation.locate_verbatim (hi : i.IsVerbatim body start) {k : Nat}
    (hk : k ≤ body.length) : i.locate k = start.advanceAll (body.take k) := by
  have hplace := i.body.getElem?_positions k
  have hlength : i.body.chars.length = body.length := by
    have := congrArg List.length hi
    rw [PlacedText.length_positions, PlacedText.length_positions, PlacedText.text_verbatim] at this
    rw [← Nat.succ.inj this, PlacedText.text, List.length_map]
  rw [IsVerbatim] at hi
  rw [Int.toNat_natCast, hlength, Nat.min_eq_left hk, hi,
    PlacedText.getElem?_positions_verbatim hk] at hplace
  exact (Option.some.inj hplace).symm

/-- Behind the opening parenthesis of a group stand its text and the closing one. -/
theorem drop_of_group (hfound : segments body = .ok found)
    (hgroup : .insertion (.group raw first stop role node) ∈ found) :
    ∃ later : Text, body.drop (first + 2) = raw ++ ↑ ')' :: later := by
  obtain ⟨before, after, rfl, hfirst⟩ := insertion_of_segments hfound hgroup
  obtain rfl : first = before.length := hfirst
  refine ⟨after, ?_⟩
  rw [← List.drop_drop, List.drop_left]
  simp [Insertion.source]

/-- Going through the body by offsets comes to the same place as lines and columns. -/
theorem Insertion.place_verbatim (hi : i.IsVerbatim body start)
    (hfound : segments body = .ok found)
    (hgroup : .insertion (.group raw first stop role node) ∈ found) {loc : Loc}
    (hloc : loc.StandsIn raw) :
    place raw first i.locate loc = loc.within (i.locate (first + 2 : Nat)) := by
  obtain ⟨k, hk, rfl⟩ := hloc
  have hlt := group_lt hfound hgroup hk
  have hline : 1 ≤ Loc.start.line := Int.le_refl 1
  have hwithin := (Loc.isMove_within (i.locate (first + 2 : Nat))).advanceAll (raw.take k) hline
  obtain ⟨later, hdrop⟩ := drop_of_group hfound hgroup
  have htake : body.take (first + 2 + k) = body.take (first + 2) ++ raw.take k := by
    rw [List.take_add, hdrop, List.take_append_of_le_length hk]
  rw [place_ofOffset hk, Loc.ofOffset, hwithin, Loc.start_within,
    Interpolation.locate_verbatim hi (by omega), Interpolation.locate_verbatim hi (by omega),
    htake, Loc.advanceAll_append]

theorem Phrase.relocate_verbatim (hi : i.IsVerbatim body start)
    (hfound : segments body = .ok found)
    (hgroup : .insertion (.group raw first stop role node) ∈ found) {c : Category} {n : Node}
    (h : Phrase c (Lexed.ofText raw).tokens n) :
    n.mapLoc (Insertion.place raw first i.locate) = n.relocate (i.locate (first + 2 : Nat)) :=
  Node.mapLoc_congr (h.everywhere_standsIn.imp fun _ hloc =>
    Insertion.place_verbatim hi hfound hgroup hloc)

theorem Insertion.exprNode_verbatim (hi : i.IsVerbatim body start)
    (hfound : segments body = .ok found)
    (hgroup : .insertion (.group raw first stop role node) ∈ found) {e : Node}
    (he : parseExpr raw = .ok e) :
    exprNode raw first (some i.locate) e = e.relocate (i.locate (first + 2 : Nat)) := by
  have htree : Phrase .expr _ e := ((@parse_eq_ok_iff_isTree .expr raw e).1 he).2
  exact htree.relocate_verbatim hi hfound hgroup

theorem Insertion.typeNode_verbatim (hi : i.IsVerbatim body start)
    (hfound : segments body = .ok found)
    (hgroup : .insertion (.group raw first stop role node) ∈ found) {t : Node}
    (ht : parseType raw = .ok t) :
    typeNode raw first (some i.locate) t =
      .typeArg (i.locate (first + 2 : Nat)) (t.relocate (i.locate (first + 2 : Nat))) := by
  have htree : Phrase (.type false) _ t := ((@parse_eq_ok_iff_isTree .type raw t).1 ht).2
  rw [typeNode, htree.relocate_verbatim hi hfound hgroup]
  rfl

end Verbatim

/-- In a body that stands in the source as it is, a group is an expression, namely the one that is
parsed where the group's text stands, or else it is a type that is parsed there. And a tree that is
moved twice is moved at once to where its origin was moved. -/
theorem Insertion.resolve_verbatim :
    (∀ (i : Interpolation) (body : Text) (start : Loc) (found : List Segment),
      i.IsVerbatim body start → segments body = .ok found →
      ∀ raw first stop role node, .insertion (.group raw first stop role node) ∈ found →
        (∀ e, (resolve .host (some i.locate) (.group raw first stop role node)).run =
            .ok (.ok (.group raw first stop (some .expression) e)) ↔
          parseExprAt (i.locate (first + 2 : Nat)) raw = .ok e) ∧
        ∀ n, (resolve .host (some i.locate) (.group raw first stop role node)).run =
            .ok (.ok (.group raw first stop (some .type) n)) ↔
          (∀ e, parseExpr raw ≠ .ok e) ∧
            ∃ t, parseTypeAt (i.locate (first + 2 : Nat)) raw = .ok t ∧
              n = .typeArg (i.locate (first + 2 : Nat)) t) ∧
    ∀ (n : Node) (origin outer : Loc), n.Everywhere (1 ≤ ·.line) → 1 ≤ origin.line →
      (n.relocate origin).relocate outer = n.relocate (origin.within outer) := by
  refine ⟨?_, fun n origin outer hn horigin => Node.relocate_relocate hn horigin outer⟩
  intro i body start found hi hfound raw first stop role node hgroup
  refine ⟨fun e => ⟨fun h => ?_, fun h => ?_⟩, fun n => ⟨fun h => ?_, fun h => ?_⟩⟩
  · cases resolve_parsed h with
    | expr he => rw [parseExprAt, he, exprNode_verbatim hi hfound hgroup he, Except.map]
  · obtain ⟨e, he, rfl⟩ := exists_of_map_eq_ok h
    rw [resolve, resolveGroup_of_parseExpr _ _ _ he, exprNode_verbatim hi hfound hgroup he]
    rfl
  · cases resolve_parsed h with
    | @type t ht =>
      refine ⟨fun e he => ?_, t.relocate (i.locate (first + 2 : Nat)), ?_, ?_⟩
      · rw [resolve, resolveGroup_of_parseExpr _ _ _ he] at h
        cases h
      · rw [parseTypeAt, ht, Except.map]
      · exact typeNode_verbatim hi hfound hgroup ht
  · obtain ⟨hnone, _, hat, rfl⟩ := h
    obtain ⟨t, ht, rfl⟩ := exists_of_map_eq_ok hat
    cases he : parseExpr raw with
    | ok e => exact absurd he (hnone e)
    | error failure =>
      rw [resolve, resolveGroup_of_parseType _ _ _ ht he, typeNode_verbatim hi hfound hgroup ht]
      rfl

/-- A name on the second line of a group, which is on the second line of its literal. -/
theorem Insertion.resolve_verbatim_lines :
    let i : Interpolation :=
      ⟨.start, .interspersed, .verbatim ['a', '\n', '$', '(', '\n', 'x', ')'] ⟨1, 3⟩⟩
    (resolve .host (some i.locate) (.group ['\n', 'x'] 2 7 none .missing)).run =
        .ok (.ok (.group ['\n', 'x'] 2 7 (some .expression) (.name ⟨3, 1⟩ ['x']))) ∧
      ((Node.name ⟨2, 1⟩ ['x']).relocate ⟨2, 3⟩).relocate ⟨5, 5⟩ =
        (Node.name ⟨2, 1⟩ ['x']).relocate (Loc.within ⟨2, 3⟩ ⟨5, 5⟩) := by
  intro i
  have hname : parseExpr ['\n', 'x'] = .ok (.name ⟨2, 1⟩ ['x']) := by
    refine (@parse_eq_ok_iff_isTree .expr ['\n', 'x'] _).2 ⟨by decide +kernel, ?_⟩
    have htokens : (Lexed.ofText ['\n', 'x']).tokens = [⟨.name, ['x'], 1, ⟨2, 1⟩⟩] := by
      decide +kernel
    rw [htokens]
    exact Phrase.toExpr (.ofPrimary (.name rfl))
  have hat : parseExprAt (i.locate (2 + 2 : Nat)) ['\n', 'x'] = .ok (.name ⟨3, 1⟩ ['x']) := by
    rw [parseExprAt, hname]
    rfl
  have hline : (Node.name ⟨2, 1⟩ ['x']).Everywhere (1 ≤ ·.line) := by
    constructor
    · intro part hpart loc hloc
      cases hpart with
      | self => cases hloc; decide
      | inside hchild => cases hchild
    · intro i hi
      cases hi with
      | inside hchild => cases hchild
  obtain ⟨hgroups, hmoves⟩ := resolve_verbatim
  refine ⟨?_, hmoves _ ⟨2, 3⟩ ⟨5, 5⟩ hline (by decide)⟩
  have hgroup := hgroups i ['a', '\n', '$', '(', '\n', 'x', ')'] ⟨1, 3⟩ _ rfl rfl ['\n', 'x'] 2 7
    none .missing (by simp)
  exact (hgroup.1 _).2 hat

end Splice
