import Splice.Proofs.Body.BareNames
import Splice.Proofs.Body.Spans
import Splice.Proofs.Phrase.Order
import Splice.Proofs.Rewrite.Conserves

/-!
# The literals out of a literal

The names and groups of a literal stand in its body one behind the other, and so do the literals in
the text of a group. So the literals that a literal lowers to stand inside it, and they are among
its arguments in the order of the source.

* `Interpolation.Before`, `Interpolation.Encloses`: the order of literals.
* `KeepsOrder`: the places of a text are moved and stay in their order.
* `Interpolation.Exact.inserted_of_resolves`: the literals in the node of a name or a group.
* `Interpolation.Exact.literals_of_lower`: those of all arguments of a literal.
-/

namespace Splice

/-! ## The order of literals -/

namespace Interpolation

/-- One literal ends before the other one starts. -/
def Before (i j : Interpolation) : Prop := i.body.stop < j.loc

/-- A literal stands inside another one. -/
structure Encloses (i j : Interpolation) : Prop where
  loc_le : i.loc ≤ j.loc
  stop_le : j.body.stop ≤ i.body.stop

/-- A literal stands in a stretch of the body of another one. -/
structure Contains (i : Interpolation) (first stop : Nat) (j : Interpolation) : Prop where
  first_le : first ≤ stop
  stop_le : stop ≤ i.body.text.length
  lt_loc : i.locate first < j.loc
  stop_lt : j.body.stop < i.locate stop

variable {source text : Text} {i j j' : Interpolation} {start first stop first' stop' offset : Nat}
  {locate : Nat → Nat} {forms : Forms}

theorem Encloses.holds (h : i.Encloses j) {d : Diagnostic} (hd : j.Holds d) : i.Holds d := by
  obtain ⟨loc, hline, hcolumn, hfirst, hlast⟩ := hd
  exact ⟨loc, hline, hcolumn, Loc.le_trans h.loc_le hfirst, Loc.le_trans hlast h.stop_le⟩

/-! ## Places of a body -/

theorem Exact.locate_lt (h : i.Exact source start locate) {j k : Nat} (hjk : j < k)
    (hk : k ≤ i.body.text.length) : i.locate j < i.locate k := by
  obtain ⟨hrise, hinside⟩ := h.encoded.lt
  rw [h.locate_eq hk, h.locate_eq (Nat.le_of_lt (Nat.lt_of_lt_of_le hjk hk))]
  exact Loc.ofOffset_lt source (hrise j k hjk hk) (Nat.le_of_lt (hinside k hk))

theorem Exact.locate_le (h : i.Exact source start locate) {j k : Nat} (hjk : j ≤ k)
    (hk : k ≤ i.body.text.length) : i.locate j ≤ i.locate k := by
  rcases Nat.eq_or_lt_of_le hjk with rfl | hlt
  · exact Loc.le_refl _
  · exact Loc.le_of_lt (h.locate_lt hlt hk)

theorem Exact.loc_le (h : i.Exact source start locate) : i.loc ≤ i.locate 0 := by
  have hplace : i.locate (0 : Nat) = Loc.ofOffset source (locate 0) :=
    h.locate_eq (Nat.zero_le _)
  rw [h.loc_eq, ← Int.natCast_zero, hplace]
  exact Loc.ofOffset_le source (Nat.le_of_lt h.encoded.start_lt)

theorem Exact.ordered (h : i.Exact source start locate) : i.Ordered := by
  obtain ⟨hrise, hinside⟩ := h.encoded.lt
  rw [Ordered, h.positions_eq, h.loc_eq, List.pairwise_cons, List.pairwise_map]
  refine ⟨List.forall_mem_map.2 fun k hk => ?_, List.pairwise_lt_range.imp_of_mem ?_⟩
  · refine Loc.ofOffset_le source (Nat.le_trans (Nat.le_of_lt h.encoded.start_lt) ?_)
    rcases Nat.eq_zero_or_pos k with rfl | hpos
    · exact Nat.le_refl _
    · exact Nat.le_of_lt (hrise 0 k hpos (Nat.le_of_lt_succ (List.mem_range.1 hk)))
  · intro j k _ hk hjk
    exact Loc.ofOffset_le source
      (Nat.le_of_lt (hrise j k hjk (Nat.le_of_lt_succ (List.mem_range.1 hk))))

theorem Exact.encloses (h : i.Exact source start locate) (hj : i.Contains first stop j) :
    i.Encloses j := by
  have hfirst : i.locate (0 : Nat) ≤ i.locate first :=
    h.locate_le (Nat.zero_le _) (Nat.le_trans hj.first_le hj.stop_le)
  have hstop : i.locate stop ≤ i.body.stop := by
    rw [← i.locate_length]
    exact h.locate_le hj.stop_le (Nat.le_refl _)
  exact ⟨Loc.le_trans (Loc.le_trans h.loc_le hfirst) (Loc.le_of_lt hj.lt_loc),
    Loc.le_trans (Loc.le_of_lt hj.stop_lt) hstop⟩

/-- Literals in stretches of a body that do not overlap. -/
theorem Exact.before (h : i.Exact source start locate) (hj : i.Contains first stop j)
    (hj' : i.Contains first' stop' j') (hle : stop ≤ first') : j.Before j' := by
  have hplace : i.locate stop ≤ i.locate first' :=
    h.locate_le hle (Nat.le_trans hj'.first_le hj'.stop_le)
  exact Loc.lt_of_lt_of_le hj.stop_lt (Loc.le_trans hplace (Loc.le_of_lt hj'.lt_loc))

/-! ## Literals of a text -/

theorem WrittenIn.stop_eq (h : i.WrittenIn text offset forms) :
    i.body.stop = Loc.ofOffset text (offset + 2 + forms.source.length) := by
  rw [← i.locate_length, h.exact.locate_eq (Nat.le_refl _), h.length_eq, forms.offset_length]

/-- A token that is a literal is the text of the literal. -/
theorem exists_writtenIn_of_writes {token : Token} (h : token.Writes i)
    (htoken : token ∈ (Lexed.ofText text).tokens) :
    ∃ forms, i.WrittenIn text token.offset forms ∧
      token.text.length = forms.source.length + 3 := by
  obtain ⟨forms, hwritten⟩ := writtenIn_of_token htoken h.1 h.2
  obtain ⟨token', htoken', -, hoffset, htext⟩ := hwritten.written.token
  obtain rfl := Lexed.eq_of_offset_eq htoken' htoken hoffset
  refine ⟨forms, hwritten, ?_⟩
  rw [htext, List.length_cons, List.length_cons, List.length_append, List.length_singleton]

end Interpolation

/-- The places of a text stay in their order when they are moved. -/
def KeepsOrder (text : Text) (f : Loc → Loc) : Prop :=
  ∀ j k, j < k → k ≤ text.length → f (Loc.ofOffset text j) < f (Loc.ofOffset text k)

theorem keepsOrder_id (text : Text) : KeepsOrder text id := fun _ _ => Loc.ofOffset_lt text

/-- Literals that are written one behind the other stay so. -/
theorem Interpolation.Precedes.before {text : Text} {i j : Interpolation}
    (h : i.Precedes (Lexed.ofText text).tokens j) {f : Loc → Loc} (hf : KeepsOrder text f) :
    (i.mapLoc f).Before (j.mapLoc f) := by
  obtain ⟨a, ha, b, hb, hi, hj, hbefore⟩ := h
  obtain ⟨forms, hi, hlength⟩ := exists_writtenIn_of_writes hi ha
  obtain ⟨forms', hj, -⟩ := exists_writtenIn_of_writes hj hb
  rw [Token.Before] at hbefore
  show f i.body.stop < f j.loc
  rw [hi.stop_eq, hj.loc_eq]
  exact hf _ _ (by omega) (Token.loc_eq_ofOffset hb).1

/-! ## Groups -/

namespace Interpolation

variable {source raw : Text} {i : Interpolation} {ins : Insertion} {start first stop : Nat}
  {locate : Nat → Nat} {found : List Segment} {role : Option Role} {node : Node}

/-- The text of a group stands in the body as it is. -/
theorem Exact.keepsOrder (h : i.Exact source start locate)
    (hfound : segments i.body.text = .ok found)
    (hgroup : .insertion (.group raw first stop role node) ∈ found) :
    KeepsOrder raw (Insertion.place raw first i.locate) := by
  intro j k hjk hk
  rw [Insertion.place_ofOffset hk, Insertion.place_ofOffset (by omega)]
  exact h.locate_lt (by omega) (Nat.le_of_lt (group_lt hfound hgroup hk))

/-- A literal has the places at which it is encoded, and it is shorter than the outer one. -/
def Nests (source : Text) (i j : Interpolation) : Prop :=
  j.IsExact source ∧ j.body.chars.length < i.body.chars.length

/-- A literal of the text of a group, moved to where the group stands, is between the parentheses of
the group. -/
theorem Exact.contains (h : i.Exact source start locate)
    (hfound : segments i.body.text = .ok found)
    (hgroup : .insertion (.group raw first stop role node) ∈ found) {j : Interpolation}
    {offset : Nat} {forms : Forms} (hj : j.WrittenIn raw offset forms) :
    i.Nests source (j.mapLoc (Insertion.place raw first i.locate)) ∧
      i.Contains first (first + (raw.length + 3))
        (j.mapLoc (Insertion.place raw first i.locate)) := by
  have hinside := hj.written.offset_lt forms.length
  rw [forms.offset_length] at hinside
  have hlast := group_lt hfound hgroup (Nat.le_refl raw.length)
  refine ⟨⟨⟨_, _, h.nested hfound hgroup hj⟩, ?_⟩, Nat.le_add_right _ _, by omega, ?_, ?_⟩
  · have hlength : i.body.text.length = i.body.chars.length := List.length_map _
    have hshorter := hj.laidOut.2
    simp only [mapLoc, PlacedText.map, List.length_map]
    omega
  · show i.locate first < Insertion.place raw first i.locate j.loc
    rw [hj.loc_eq, Insertion.place_ofOffset (by omega)]
    exact h.locate_lt (by omega) (by omega)
  · show Insertion.place raw first i.locate j.body.stop < i.locate (first + (raw.length + 3) : Nat)
    rw [hj.stop_eq, Insertion.place_ofOffset (by omega)]
    exact h.locate_lt (by omega) (by omega)

/-- A tree of the text of a group, moved to where the group stands. -/
theorem Exact.tree_of_group (h : i.Exact source start locate)
    (hfound : segments i.body.text = .ok found)
    (hgroup : .insertion (.group raw first stop role node) ∈ found) {sort : NodeSort} {n : Node}
    (hsort : HasSort (fun j => ∃ offset forms, j.WrittenIn raw offset forms) sort n)
    (hrise : n.literals.Pairwise (Precedes (Lexed.ofText raw).tokens)) :
    let moved := n.mapLoc (Insertion.place raw first i.locate)
    HasSort (i.Nests source) sort moved ∧ moved.literals.Pairwise Before ∧
      ∀ j ∈ moved.literals, i.Contains first (first + (raw.length + 3)) j := by
  have hmoved (j : Interpolation) (hj : ∃ offset forms, j.WrittenIn raw offset forms) :
      i.Nests source (j.mapLoc (Insertion.place raw first i.locate)) ∧
        i.Contains first (first + (raw.length + 3))
          (j.mapLoc (Insertion.place raw first i.locate)) := by
    obtain ⟨offset, forms, hj⟩ := hj
    exact h.contains hfound hgroup hj
  refine ⟨hsort.map fun j hj => (hmoved j hj).1, ?_, ?_⟩
  · rw [Node.literals_mapLoc, List.pairwise_map]
    exact hrise.imp fun hij => hij.before (h.keepsOrder hfound hgroup)
  · rw [Node.literals_mapLoc]
    exact List.forall_mem_map.2 fun j hj => (hmoved j (hsort.of_mem_literals j hj)).2

/-- The literals in the node of a name or a group are between its ends, one behind the other. -/
theorem Exact.inserted_of_resolves (h : i.Exact source start locate) (hins : i.Resolves ins) :
    IsInserted (i.Nests source) ins.node ∧ ins.node.literals.Pairwise Before ∧
      ∀ j ∈ ins.node.literals, i.Contains ins.start ins.stop j := by
  obtain ⟨found, unresolved, hfound, hmem, hresolve⟩ := hins
  have hparsed := Insertion.resolve_parsed hresolve
  cases unresolved with
  | name ident first stop node =>
    simp only at hparsed
    subst hparsed
    exact ⟨.name _ _, .nil, nofun⟩
  | group raw first stop role node =>
    obtain rfl : stop = first + (raw.length + 3) := by
      obtain ⟨_, _, _, -, -, hescape⟩ := escapeAt_of_segments hfound hmem
      cases hescape
      rfl
    cases hparsed with
    | type ht =>
      have hsort : HasSort _ (.type false) _ := @written_of_parse .type raw _ ht
      obtain ⟨hsort, hrest⟩ := h.tree_of_group hfound hmem hsort (parseType_literals ht)
      exact ⟨.type _ hsort, hrest⟩
    | expr he =>
      have hsort : HasSort _ .expr _ := @written_of_parse .expr raw _ he
      obtain ⟨hsort, hrest⟩ := h.tree_of_group hfound hmem hsort (parseExpr_literals he)
      exact ⟨.expr hsort, hrest⟩

end Interpolation

/-! ## Arguments -/

/-- The literals in the node of a name or a group. -/
def Segment.literals : Segment → List Interpolation
  | insertion ins => ins.node.literals
  | text _ _ _ | dollar _ _ => []

theorem Segment.literals_values (segments : List Segment) :
    (segments.filterMap value?).flatMap Argument.literals = segments.flatMap literals := by
  induction segments with
  | nil => rfl
  | cons segment rest ih =>
    cases segment with
    | insertion ins =>
      have hvalue : ins.value.literals = ins.node.literals := by cases ins <;> rfl
      show ins.value.literals ++ _ = ins.node.literals ++ _
      rw [hvalue]
      exact congrArg _ ih
    | text | dollar => exact ih

/-- Texts among the arguments hold no literals. -/
theorem Argument.literals_filter (args : List Argument) :
    (args.filter isValue).flatMap literals = args.flatMap literals := by
  induction args with
  | nil => rfl
  | cons arg args ih =>
    cases arg with
    | text t =>
      rw [List.filter_cons_of_neg Bool.false_ne_true, ih]
      rfl
    | value role source node =>
      rw [List.filter_cons_of_pos rfl, List.flatMap_cons, List.flatMap_cons, ih]

theorem Segment.map_unresolved_of_resolve {locate : Option Locate} {found resolved : List Segment}
    (h : (resolve .host locate found).run = .ok (.ok resolved)) :
    resolved.map unresolved = found.map unresolved := by
  induction found generalizing resolved with
  | nil =>
    cases h
    rfl
  | cons segment rest ih =>
    cases segment with
    | insertion ins =>
      obtain ⟨first, hfirst, h⟩ := Attempt.run_bind_eq_ok.1 h
      obtain ⟨later, hlater, h⟩ := Attempt.run_bind_eq_ok.1 h
      cases h
      have hsame : (insertion first).unresolved = (insertion ins).unresolved := by
        have hparsed := Insertion.resolve_parsed hfirst
        cases ins with
        | name =>
          simp only at hparsed
          subst hparsed
          rfl
        | group => cases hparsed <;> rfl
      rw [List.map_cons, List.map_cons, hsame, ih hlater]
    | text | dollar =>
      obtain ⟨later, hlater, h⟩ := Attempt.run_bind_eq_ok.1 h
      cases h
      rw [List.map_cons, List.map_cons, ih hlater]

/-- Segments that are resolved still stand one behind the other. -/
theorem Segment.pairwise_stop_le_of_resolve {body : Text} {locate : Option Locate}
    {found resolved : List Segment} (hfound : segments body = .ok found)
    (h : (resolve .host locate found).run = .ok (.ok resolved)) :
    resolved.Pairwise fun segment later => segment.stop ≤ later.start := by
  have hstart (segment : Segment) : segment.unresolved.start = segment.start := by
    rcases segment with _ | _ | ⟨_ | _⟩ <;> rfl
  have hstop (segment : Segment) : segment.unresolved.stop = segment.stop := by
    rcases segment with _ | _ | ⟨_ | _⟩ <;> rfl
  obtain ⟨hwell, hbare, -⟩ := wellFormed_of_scan List.not_mem_nil rfl hfound
  have hpairwise := hwell.pairwise_stop_le.2
  rw [← hbare, ← map_unresolved_of_resolve h, List.pairwise_map] at hpairwise
  simpa only [hstart, hstop] using hpairwise

namespace Interpolation

variable {source : Text} {i : Interpolation} {start : Nat} {locate : Nat → Nat}

/-- The literals that a literal lowers to are inside it, one behind the other. -/
theorem Exact.literals_of_lower (h : i.Exact source start locate) {context : Context}
    {file : Option Text} {lowering : Lowering}
    (hlower : i.lower context .host file = .ok (.ok lowering)) :
    (lowering.args.flatMap Argument.literals).Pairwise Before ∧
      ∀ j ∈ lowering.args.flatMap Argument.literals, i.Encloses j := by
  obtain ⟨-, hresolved, hargs⟩ := lower_eq_ok.1 hlower
  obtain ⟨found, hfound, hresolve⟩ := Attempt.run_bind_eq_ok.1 hresolved
  have hfound : segments i.body.text = .ok found := Except.ok.inj hfound
  have hresolves (ins : Insertion) (hins : .insertion ins ∈ lowering.segments) :
      i.Resolves ins := by
    obtain ⟨unresolved, hunresolved, hins⟩ := Segment.exists_of_mem_resolve hresolve hins
    exact ⟨found, unresolved, hfound, hunresolved, hins⟩
  have hvalues := filter_of_lowerSegments (fun _ hmem => by
    obtain ⟨_, -, hins⟩ := Segment.exists_of_mem_resolve hresolve hmem
    exact Insertion.isClassified_of_resolve hins) hargs
  have hcontains (ins : Insertion) (hins : .insertion ins ∈ lowering.segments) :=
    h.inserted_of_resolves (hresolves ins hins)
  -- Only insertions have literals, so these stand in the order of the segments.
  rw [← Argument.literals_filter, hvalues, Segment.literals_values]
  refine ⟨List.pairwise_flatMap.2 ⟨fun segment hsegment => ?_, ?_⟩, fun j hj => ?_⟩
  · cases segment with
    | insertion ins => exact (hcontains ins hsegment).2.1
    | text | dollar => exact .nil
  · refine (Segment.pairwise_stop_le_of_resolve hfound hresolve).imp_of_mem ?_
    intro segment later hsegment hlater hle j hj j' hj'
    cases segment with
    | text | dollar => cases hj
    | insertion ins =>
      cases later with
      | text | dollar => cases hj'
      | insertion ins' =>
        exact h.before ((hcontains ins hsegment).2.2 j hj) ((hcontains ins' hlater).2.2 j' hj') hle
  · obtain ⟨segment, hsegment, hj⟩ := List.mem_flatMap.1 hj
    cases segment with
    | insertion ins => exact h.encloses ((hcontains ins hsegment).2.2 j hj)
    | text | dollar => cases hj

end Interpolation

end Splice
