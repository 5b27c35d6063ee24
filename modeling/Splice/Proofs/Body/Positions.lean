import Splice.Proofs.Body.Lowering
import Splice.Proofs.Phrase.Parsed
import Splice.Proofs.Phrase.Parts

/-!
# Places at every depth

The characters of a literal in a group are written in characters of the outer literal, which are
written in turn where that one stands, and so on up to the source. However deep a literal is, it has
the places in the source at which its characters are encoded, and so has every node out of a group.

* `EncodedIn`: where a literal of a source, or one in a group of it, is encoded.
* `EncodedIn.lt`: later characters are encoded further behind.
* `Interpolation.MetIn`: the literals that rewriting a source meets.
* `Interpolation.MetIn.exact`: their places are those of their encoding.
* `Insertion.PlacedIn`: the nodes of names and groups stand where they are encoded.
* `Interpolation.MetIn.positions`: these together.
-/

namespace Splice

/-! ## Encodings -/

/-- How a literal of a source, or one in a group of such a literal and so on, is encoded in the
source: its first letter at the offset `start`, the character `k` of its body at `locate k`, and the
closing quote where a character behind the body would be. -/
inductive EncodedIn (source : Text) :
    InterpolationKind → Text → (start : Nat) → (locate : Nat → Nat) → Prop
  | written {offset : Nat} {kind : InterpolationKind} {forms : Forms}
    (h : WrittenAt source offset kind forms) :
    EncodedIn source kind (forms.map (·.2)) offset (offset + 2 + forms.offset ·)
  /-- Offsets in the text of a group are offsets in the outer body, behind the parenthesis. -/
  | nested {kind kind' : InterpolationKind} {outer raw : Text} {start first stop offset : Nat}
    {locate : Nat → Nat} {found : List Segment} {role : Option Role} {node : Node} {forms : Forms}
    (h : EncodedIn source kind outer start locate) (hfound : segments outer = .ok found)
    (hgroup : .insertion (.group raw first stop role node) ∈ found)
    (hwritten : WrittenAt raw offset kind' forms) :
    EncodedIn source kind' (forms.map (·.2)) (locate (first + 2 + offset))
      fun k => locate (first + 2 + (offset + 2 + forms.offset k))

section Encodings

variable {source raw outer : Text} {kind : InterpolationKind} {body : Text} {start first stop : Nat}
  {locate : Nat → Nat} {found : List Segment} {role : Option Role} {node : Node}

/-- A group ends inside the body. -/
theorem group_lt (hfound : segments outer = .ok found)
    (hgroup : .insertion (.group raw first stop role node) ∈ found) {k : Nat}
    (hk : k ≤ raw.length) : first + 2 + k < outer.length := by
  obtain ⟨before, after, rfl, hfirst⟩ := insertion_of_segments hfound hgroup
  obtain rfl : first = before.length := hfirst
  simp only [Insertion.source, List.length_append, List.length_cons]
  omega

/-- Later characters are encoded further behind, and all of them in the source. -/
theorem EncodedIn.lt (h : EncodedIn source kind body start locate) :
    (∀ j k, j < k → k ≤ body.length → locate j < locate k) ∧
      ∀ k ≤ body.length, locate k < source.length := by
  induction h with
  | written h =>
    refine ⟨fun j k hjk hk => ?_, fun k _ => h.offset_lt k⟩
    rw [List.length_map] at hk
    exact Nat.add_lt_add_left (h.valid.offset_lt hjk hk) _
  | nested _ hfound hgroup hwritten ih =>
    have hlt (k : Nat) := group_lt hfound hgroup (Nat.le_of_lt (hwritten.offset_lt k))
    refine ⟨fun j k hjk hk => ih.1 _ _ ?_ (Nat.le_of_lt (hlt k)), fun k _ =>
      ih.2 _ (Nat.le_of_lt (hlt k))⟩
    rw [List.length_map] at hk
    have := hwritten.valid.offset_lt hjk hk
    omega

end Encodings

/-! ## Literals -/

namespace Interpolation

/-- A name or a group of a literal, with the node that it is given. -/
def Resolves (i : Interpolation) (ins : Insertion) : Prop :=
  ∃ found unresolved, segments i.body.text = .ok found ∧ .insertion unresolved ∈ found ∧
    (unresolved.resolve .host (some i.locate)).run = .ok (.ok ins)

/-- The literals that rewriting a source meets: those of its program, and those in the node of a
group of another one that is met. -/
inductive MetIn (source : Text) : Interpolation → Prop
  | written {p : Program} {i : Interpolation} (hp : parseProgram source = .ok p)
    (hi : i ∈ Node.literalsOf p) : MetIn source i
  | nested {outer i : Interpolation} {ins : Insertion} (h : MetIn source outer)
    (hins : outer.Resolves ins) (hi : i ∈ ins.node.literals) : MetIn source i

/-- A literal has the places at which it is encoded. -/
structure Exact (source : Text) (start : Nat) (locate : Nat → Nat) (i : Interpolation) : Prop where
  encoded : EncodedIn source i.kind i.body.text start locate
  loc_eq : i.loc = Loc.ofOffset source start
  positions_eq : i.body.positions =
    (List.range (i.body.text.length + 1)).map fun k => Loc.ofOffset source (locate k)

/-- A literal has the places at which it is encoded, wherever this is. -/
def IsExact (source : Text) (i : Interpolation) : Prop :=
  ∃ start locate, i.Exact source start locate

section Exact

variable {source raw : Text} {i outer : Interpolation} {ins : Insertion}
  {start first stop offset : Nat} {locate : Nat → Nat} {found : List Segment} {role : Option Role}
  {node : Node} {forms : Forms}

theorem WrittenIn.exact (h : i.WrittenIn source offset forms) :
    i.Exact source offset (offset + 2 + forms.offset ·) := by
  refine ⟨?_, h.loc_eq, ?_⟩
  · rw [h.text_eq]
    exact .written h.written
  · rw [h.length_eq]
    exact h.positions_eq

theorem Exact.locate_eq (h : i.Exact source start locate) {k : Nat} (hk : k ≤ i.body.text.length) :
    i.locate k = Loc.ofOffset source (locate k) := by
  have hplace := i.body.getElem?_positions k
  have hlength : i.body.text.length = i.body.chars.length := List.length_map _
  rw [h.positions_eq, Int.toNat_natCast, ← hlength, Nat.min_eq_left hk, List.getElem?_map,
    List.getElem?_range (Nat.lt_succ_of_le hk)] at hplace
  exact (Option.some.inj hplace).symm

/-- A place in the text of a group is moved to where it is encoded. -/
theorem Exact.place_eq (h : i.Exact source start locate) (hfound : segments i.body.text = .ok found)
    (hgroup : .insertion (.group raw first stop role node) ∈ found) {k : Nat}
    (hk : k ≤ raw.length) :
    Insertion.place raw first i.locate (Loc.ofOffset raw k) =
      Loc.ofOffset source (locate (first + 2 + k)) := by
  rw [Insertion.place_ofOffset hk]
  exact h.locate_eq (Nat.le_of_lt (group_lt hfound hgroup hk))

/-- A literal of a group, moved to where the group stands, has the places at which it is encoded. -/
theorem Exact.nested (h : outer.Exact source start locate)
    (hfound : segments outer.body.text = .ok found)
    (hgroup : .insertion (.group raw first stop role node) ∈ found)
    (hi : i.WrittenIn raw offset forms) :
    (i.mapLoc (Insertion.place raw first outer.locate)).Exact source (locate (first + 2 + offset))
      fun k => locate (first + 2 + (offset + 2 + forms.offset k)) := by
  have hlt := hi.written.offset_lt
  refine ⟨?_, ?_, ?_⟩
  · rw [mapLoc, PlacedText.text_map, hi.text_eq]
    exact .nested h.encoded hfound hgroup hi.written
  · have := hlt 0
    rw [mapLoc, hi.loc_eq]
    exact h.place_eq hfound hgroup (by omega)
  · rw [mapLoc, PlacedText.positions_map, PlacedText.text_map, hi.positions_eq, hi.length_eq,
      List.map_map]
    exact List.map_congr_left fun k _ => h.place_eq hfound hgroup (Nat.le_of_lt (hlt k))

end Exact

end Interpolation

/-- A name or a group that was given its node. -/
theorem Insertion.resolve_parsed {locate : Option Locate} {unresolved ins : Insertion}
    (h : (unresolved.resolve .host locate).run = .ok (.ok ins)) :
    match unresolved with
    | .name ident start stop _ =>
      ins = .name ident start stop
        (.name (locate.elim .start fun locate => locate (start + 1)) ident)
    | .group raw start stop _ _ => ParsedAs raw start stop locate ins := by
  cases unresolved with
  | name ident start stop node =>
    cases h
    rfl
  | group raw start stop role node => exact (resolveGroup_parsed locate start stop).of_run h

namespace Interpolation

/-- The literals of a parsed text are written in it. -/
theorem written_of_parse {goal : Goal} {text : Text} {v : goal.body.Value}
    (h : parse goal text = .ok v) :
    goal.body.Holds (fun i => ∃ offset forms, i.WrittenIn text offset forms) v := by
  refine parse_holds h fun token htoken hkind i hi => ?_
  obtain ⟨forms, hforms⟩ := writtenIn_of_token htoken hkind hi
  exact ⟨token.offset, forms, hforms⟩

/-- The literal is one that is written in a text, moved elsewhere. -/
def MovedFrom (raw : Text) (f : Loc → Loc) (i : Interpolation) : Prop :=
  ∃ (inner : Interpolation) (offset : Nat) (forms : Forms),
    inner.WrittenIn raw offset forms ∧ i = inner.mapLoc f

/-- A literal out of a literal is one of the text of a group, moved to where the group stands. -/
theorem Resolves.exists_movedFrom {outer i : Interpolation} {ins : Insertion}
    (h : outer.Resolves ins) (hi : i ∈ ins.node.literals) :
    ∃ found raw first stop role node, segments outer.body.text = .ok found ∧
      .insertion (.group raw first stop role node) ∈ found ∧
      i.MovedFrom raw (Insertion.place raw first outer.locate) := by
  obtain ⟨found, unresolved, hfound, hmem, hresolve⟩ := h
  have hparsed := Insertion.resolve_parsed hresolve
  cases unresolved with
  | name ident first stop node =>
    simp only at hparsed
    subst hparsed
    cases hi
  | group raw first stop role node =>
    refine ⟨found, raw, first, stop, role, node, hfound, hmem, ?_⟩
    have hmoved (inner : Interpolation) (h : ∃ offset forms, inner.WrittenIn raw offset forms) :
        (inner.mapLoc (Insertion.place raw first outer.locate)).MovedFrom raw
          (Insertion.place raw first outer.locate) := by
      obtain ⟨offset, forms, hinner⟩ := h
      exact ⟨inner, offset, forms, hinner, rfl⟩
    cases hparsed with
    | type ht =>
      have hsort : HasSort _ (.type false) _ := @written_of_parse .type raw _ ht
      exact (hsort.map hmoved).of_mem_literals i hi
    | expr he =>
      have hsort : HasSort _ .expr _ := @written_of_parse .expr raw _ he
      exact (hsort.map hmoved).of_mem_literals i hi

/-- The literals of a program are written in its source. -/
theorem exists_writtenIn_of_parseProgram {source : Text} {p : Program}
    (hp : parseProgram source = .ok p) {i : Interpolation} (hi : i ∈ Node.literalsOf p) :
    ∃ offset forms, i.WrittenIn source offset forms := by
  have hsort : ∀ s ∈ p, HasSort _ .statement s := @written_of_parse .program source p hp
  exact HasSort.of_mem_literalsOf (fun s hs => (hsort s hs).of_mem_literals) i hi

/-- Every literal that rewriting meets has the places at which it is encoded. -/
theorem MetIn.exact {source : Text} {i : Interpolation} (h : i.MetIn source) :
    i.IsExact source := by
  induction h with
  | written hp hi =>
    obtain ⟨offset, forms, hi⟩ := exists_writtenIn_of_parseProgram hp hi
    exact ⟨_, _, hi.exact⟩
  | nested _ hins hi ih =>
    obtain ⟨start, locate, hexact⟩ := ih
    obtain ⟨_, _, _, _, _, _, hfound, hgroup, _, _, _, hinner, rfl⟩ := hins.exists_movedFrom hi
    exact ⟨_, _, hexact.nested hfound hgroup hinner⟩

end Interpolation

/-! ## Calls with a literal -/

section Calls

variable {ident lparen literal rparen semicolon : Token} {i : Interpolation}

/-- A call with a literal as its only argument. -/
theorem Phrase.callLiteral (hident : ident.terminal = .name)
    (hlparen : lparen.terminal = .mark .lparen) (hliteral : literal.terminal = .interpolatedLit)
    (hi : Interpolation.ofToken literal = .ok i) (hrparen : rparen.terminal = .mark .rparen) :
    Phrase .expr [ident, lparen, literal, rparen]
      (.call ident.loc (.name ident.loc ident.text) [.interpolation i]) := by
  have hargument : Phrase .expr [literal] (.interpolation i) :=
    Phrase.toExpr (.ofPrimary (.interpolation hliteral hi))
  have hargs : ∀ a ∈ [([literal], Node.interpolation i)], Phrase .expr a.1 a.2 :=
    List.forall_mem_singleton.2 hargument
  exact Phrase.toExpr (.call (.ofPrimary (.name hident)) hlparen hargs (.items .nil) hrparen)

/-- A text that is such a call. -/
theorem parseExpr_callLiteral {raw : Text} (hlexed : (Lexed.ofText raw).fault = none)
    (htokens : (Lexed.ofText raw).tokens = [ident, lparen, literal, rparen])
    (hident : ident.terminal = .name) (hlparen : lparen.terminal = .mark .lparen)
    (hliteral : literal.terminal = .interpolatedLit) (hi : Interpolation.ofToken literal = .ok i)
    (hrparen : rparen.terminal = .mark .rparen) :
    parseExpr raw =
      .ok (.call ident.loc (.name ident.loc ident.text) [.interpolation i]) := by
  refine (@parse_eq_ok_iff_isTree .expr raw _).2 ⟨hlexed, ?_⟩
  rw [htokens]
  exact Phrase.callLiteral hident hlparen hliteral hi hrparen

/-- A source that is such a call. -/
theorem parseProgram_callLiteral {source : Text} (hlexed : (Lexed.ofText source).fault = none)
    (htokens : (Lexed.ofText source).tokens = [ident, lparen, literal, rparen, semicolon])
    (hident : ident.terminal = .name) (hlparen : lparen.terminal = .mark .lparen)
    (hliteral : literal.terminal = .interpolatedLit) (hi : Interpolation.ofToken literal = .ok i)
    (hrparen : rparen.terminal = .mark .rparen)
    (hsemicolon : semicolon.terminal = .mark .semicolon) :
    parseProgram source = .ok [.evaluate ident.loc
      (.call ident.loc (.name ident.loc ident.text) [.interpolation i])] := by
  refine (@parse_eq_ok_iff_isTree .program source _).2 ⟨hlexed, ?_⟩
  have hcall := Phrase.callLiteral hident hlparen hliteral hi hrparen
  rw [htokens]
  refine ⟨[([ident, lparen, literal, rparen, semicolon], _)], (List.append_nil _).symm, rfl,
    List.forall_mem_singleton.2 ?_⟩
  exact .evaluate hcall hsemicolon

end Calls

/-! ## Nodes of names and groups -/

/-- A tree of the text of a group that was moved to the source: every node stands where the first
token of its phrase is encoded. -/
def Node.PlacedFrom (raw : Text) (place : Nat → Loc) (tree n : Node) : Prop :=
  ∃ f : Loc → Loc, n = tree.mapLoc f ∧
    ∀ part : Node, part.IsPartOf tree → ∀ loc, part.loc? = some loc →
      ∃ c token rest, token :: rest <:+: (Lexed.ofText raw).tokens ∧
        Phrase c (token :: rest) part ∧ f loc = place token.offset

/-- A name or a group of a body with its node. The character `k` of the body is at `place k`. -/
inductive Insertion.PlacedIn (body : Text) (place : Nat → Loc) : Insertion → Prop
  /-- A name stands at its first character, behind the dollar sign. -/
  | name {before ident after : Text} {stop : Nat} (h : body = before ++ ↑ '$' :: (ident ++ after)) :
    PlacedIn body place
      (.name ident before.length stop (.name (place (before.length + 1)) ident))
  | expr {before raw after : Text} {stop : Nat} {e n : Node}
    (h : body = before ++ ↑ '$' :: ↑ '(' :: (raw ++ ↑ ')' :: after)) (he : parseExpr raw = .ok e)
    (hn : Node.PlacedFrom raw (fun k => place (before.length + 2 + k)) e n) :
    PlacedIn body place (.group raw before.length stop (some .expression) n)
  /-- What makes a type an argument stands at the first character of the group's text. -/
  | type {before raw after : Text} {stop : Nat} {t n : Node}
    (h : body = before ++ ↑ '$' :: ↑ '(' :: (raw ++ ↑ ')' :: after)) (ht : parseType raw = .ok t)
    (hn : Node.PlacedFrom raw (fun k => place (before.length + 2 + k)) t n) :
    PlacedIn body place
      (.group raw before.length stop (some .type) (.typeArg (place (before.length + 2)) n))

/-- Every node of a parsed text stands at the first token of its phrase. -/
theorem Phrase.placedFrom {c : Category} {raw : Text} {tree : Node} {f : Loc → Loc}
    {place : Nat → Loc} (h : Phrase c (Lexed.ofText raw).tokens tree)
    (hplace : ∀ k ≤ raw.length, f (Loc.ofOffset raw k) = place k) :
    Node.PlacedFrom raw place tree (tree.mapLoc f) := by
  refine ⟨f, rfl, fun part hpart loc hloc => ?_⟩
  obtain ⟨c, token, rest, hinside, hphrase, rfl⟩ := h.part_begins hpart loc hloc
  refine ⟨c, token, rest, hinside, hphrase, ?_⟩
  obtain ⟨hoffset, htoken⟩ := Token.loc_eq_ofOffset (hinside.subset List.mem_cons_self)
  rw [htoken]
  exact hplace _ hoffset

namespace Interpolation

variable {source : Text} {i : Interpolation} {start : Nat} {locate : Nat → Nat}

theorem Exact.placedIn (h : i.Exact source start locate) {ins : Insertion} (hins : i.Resolves ins) :
    ins.PlacedIn i.body.text fun k => Loc.ofOffset source (locate k) := by
  obtain ⟨found, unresolved, hfound, hmem, hresolve⟩ := hins
  have hparsed := Insertion.resolve_parsed hresolve
  obtain ⟨before, after, hbody, hstart⟩ := insertion_of_segments hfound hmem
  cases unresolved with
  | name ident first stop node =>
    obtain rfl : first = before.length := hstart
    have hle : before.length + 1 ≤ i.body.text.length := by
      rw [hbody]
      simp only [Insertion.source, List.length_append, List.length_cons]
      omega
    have hloc : i.locate (before.length + 1) = Loc.ofOffset source (locate (before.length + 1)) :=
      h.locate_eq hle
    simp only at hparsed
    subst hparsed
    rw [Option.elim_some, hloc]
    exact .name hbody
  | group raw first stop role node =>
    obtain rfl : first = before.length := hstart
    have hbody : i.body.text = before ++ ↑ '$' :: ↑ '(' :: (raw ++ ↑ ')' :: after) := by
      rw [hbody, Insertion.source]
      simp
    -- The group was parsed as a text of its own, and its places were moved afterwards.
    have hplace (k : Nat) (hk : k ≤ raw.length) := h.place_eq hfound hmem hk
    cases hparsed with
    | type ht =>
      have hfirst : i.locate (before.length + 2) =
          Loc.ofOffset source (locate (before.length + 2)) :=
        h.locate_eq (Nat.le_of_lt (group_lt hfound hmem (Nat.zero_le _)))
      have htree : Goal.type.IsTree _ _ := ((@parse_eq_ok_iff_isTree .type raw _).1 ht).2
      rw [Insertion.typeNode, hfirst]
      exact .type hbody ht (Phrase.placedFrom htree hplace)
    | expr he =>
      have htree : Goal.expr.IsTree _ _ := ((@parse_eq_ok_iff_isTree .expr raw _).1 he).2
      exact .expr hbody he (Phrase.placedFrom htree hplace)

/-- However deep a literal is that rewriting a source meets, it is encoded in the source, and stands
there: its first letter, each character of its body, and its closing quote have the places at which
their encodings begin, which come one after another; and so do the nodes of its names and groups. -/
theorem MetIn.positions (h : i.MetIn source) :
    ∃ start locate, EncodedIn source i.kind i.body.text start locate ∧
      i.loc = Loc.ofOffset source start ∧
      i.body.positions =
        (List.range (i.body.text.length + 1)).map (fun k => Loc.ofOffset source (locate k)) ∧
      i.body.positions.length = i.body.text.length + 1 ∧ i.body.positions.Pairwise (· < ·) ∧
      ∀ ins, i.Resolves ins → ins.PlacedIn i.body.text fun k => Loc.ofOffset source (locate k) := by
  obtain ⟨start, locate, hexact⟩ := h.exact
  refine ⟨start, locate, hexact.encoded, hexact.loc_eq, hexact.positions_eq,
    i.body.length_positions, ?_, fun ins => hexact.placedIn⟩
  obtain ⟨hrise, hinside⟩ := hexact.encoded.lt
  rw [hexact.positions_eq, List.pairwise_map]
  refine List.pairwise_lt_range.imp_of_mem fun {j k} _ hk hjk => ?_
  have hk := Nat.le_of_lt_succ (List.mem_range.1 hk)
  exact Loc.ofOffset_lt source (hrise j k hjk hk) (Nat.le_of_lt (hinside k hk))

/-- A literal in the group of another one, where its quotes are escaped. -/
theorem MetIn.positions_nested :
    let source : Text := ['g', '(', 'i', '"', '$', '(', 'h', '(', 'i', '\\', '"', 'b', '\\', '"',
      ')', ')', '"', ')', ';']
    let i : Interpolation := ⟨⟨1, 9⟩, .interspersed, ⟨[('b', ⟨1, 12⟩)], ⟨1, 13⟩⟩⟩
    i.MetIn source ∧ ∃ start locate, EncodedIn source i.kind i.body.text start locate ∧
      i.loc = Loc.ofOffset source start ∧
      i.body.positions =
        (List.range (i.body.text.length + 1)).map (fun k => Loc.ofOffset source (locate k)) ∧
      i.body.positions.length = i.body.text.length + 1 ∧ i.body.positions.Pairwise (· < ·) ∧
      ∀ ins, i.Resolves ins →
        ins.PlacedIn i.body.text fun k => Loc.ofOffset source (locate k) := by
  intro source i
  let raw : Text := (['h', '(', 'i', '"', 'b', '"', ')'] : Text)
  let outer : Interpolation := ⟨⟨1, 3⟩, .interspersed, ⟨[('$', ⟨1, 5⟩), ('(', ⟨1, 6⟩),
    ('h', ⟨1, 7⟩), ('(', ⟨1, 8⟩), ('i', ⟨1, 9⟩), ('"', ⟨1, 10⟩), ('b', ⟨1, 12⟩), ('"', ⟨1, 13⟩),
    (')', ⟨1, 15⟩), (')', ⟨1, 16⟩)], ⟨1, 17⟩⟩⟩
  have hprogram : parseProgram source =
      .ok [.evaluate ⟨1, 1⟩ (.call ⟨1, 1⟩ (.name ⟨1, 1⟩ ['g']) [.interpolation outer])] := by
    have htokens : (Lexed.ofText source).tokens = [⟨.name, ['g'], 0, ⟨1, 1⟩⟩,
        ⟨.mark .lparen, ['('], 1, ⟨1, 2⟩⟩,
        ⟨.interpolatedLit, ['i', '"', '$', '(', 'h', '(', 'i', '\\', '"', 'b', '\\', '"', ')', ')',
          '"'], 2, ⟨1, 3⟩⟩, ⟨.mark .rparen, [')'], 17, ⟨1, 18⟩⟩,
        ⟨.mark .semicolon, [';'], 18, ⟨1, 19⟩⟩] := by
      decide +kernel
    exact parseProgram_callLiteral (by decide +kernel) htokens rfl rfl rfl rfl rfl rfl
  have hgroup : parseExpr raw = .ok (.call ⟨1, 1⟩ (.name ⟨1, 1⟩ ['h'])
      [.interpolation ⟨⟨1, 3⟩, .interspersed, ⟨[('b', ⟨1, 5⟩)], ⟨1, 6⟩⟩⟩]) := by
    have htokens : (Lexed.ofText raw).tokens = [⟨.name, ['h'], 0, ⟨1, 1⟩⟩,
        ⟨.mark .lparen, ['('], 1, ⟨1, 2⟩⟩, ⟨.interpolatedLit, ['i', '"', 'b', '"'], 2, ⟨1, 3⟩⟩,
        ⟨.mark .rparen, [')'], 6, ⟨1, 7⟩⟩] := by decide +kernel
    exact parseExpr_callLiteral (by decide +kernel) htokens rfl rfl rfl rfl rfl
  have hmet : i.MetIn source := by
    have hresolve := Insertion.resolveGroup_of_parseExpr (some outer.locate) 0 10 hgroup
    refine .nested (.written hprogram List.mem_cons_self)
      ⟨_, .group raw 0 10 none .missing, rfl, List.mem_cons_of_mem _ List.mem_cons_self,
        congrArg ExceptT.run hresolve⟩ ?_
    exact List.mem_cons_self
  exact ⟨hmet, hmet.positions⟩

end Interpolation

end Splice
