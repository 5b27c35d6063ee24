import Splice.Proofs.Lexing.Order
import Splice.Proofs.Phrase.Parsed
import Splice.Proofs.Phrase.Parts

/-!
# Where the nodes of a source stand

The text of a node is a phrase with its tree. Parentheses around a whole expression leave no trace
in the tree and do not belong to its text; those around the first operand of an expression do. A
node stands at the first token of its text, and the nodes inside it do not stand before it.

* `Node.IsTextOf`: a row of tokens is the text of a node.
* `Phrase.isTextOf`: a phrase that begins where its tree stands is the text of its tree.
* `Phrase.token_of_atom`: names and literals are one token each.
* `Program.part_located`: where the nodes of a source stand.
-/

namespace Splice

/-- The tokens are an expression with a pair of parentheses around it. -/
def Phrase.Enclosed (tokens : List Token) (n : Node) : Prop :=
  ∃ lparen ts rparen, lparen.terminal = .mark .lparen ∧ Phrase .expr ts n ∧
    rparen.terminal = .mark .rparen ∧ tokens = lparen :: (ts ++ [rparen])

/-- The tokens are the text of a node: a phrase with its tree, without parentheses around it. -/
structure Node.IsTextOf (n : Node) (tokens : List Token) : Prop where
  phrase : ∃ c : Category, c.isOptional = false ∧ Phrase c tokens n
  bare : ¬ Phrase.Enclosed tokens n

/-- The nodes that are one token each. -/
def Node.isAtom : Node → Bool
  | .name .. | .literal .. | .interpolation _ => true
  | _ => false

section Located

variable {c : Category} {token : Token} {tokens rest : List Token} {n : Node}

/-- A tree does not stand before its phrase. -/
theorem Phrase.not_before (h : Phrase c tokens n)
    (hbefore : ∀ token' ∈ tokens, token.loc < token'.loc) : n.loc? ≠ some token.loc := by
  intro hloc
  obtain ⟨_, token', _, hinside, -, heq⟩ := h.begins _ hloc
  have hlt := hbefore token' (hinside.subset List.mem_cons_self)
  rw [← heq] at hlt
  exact Loc.lt_irrefl _ hlt

/-- A phrase that begins where its tree stands is the text of its tree. -/
theorem Phrase.isTextOf (h : Phrase c (token :: rest) n) (hloc : n.loc? = some token.loc)
    (hrise : (token :: rest).Pairwise fun a b => a.loc < b.loc) :
    n.IsTextOf (token :: rest) := by
  have hbehind := (List.pairwise_cons.1 hrise).1
  constructor
  · cases hc : c.isOptional with
    | false => exact ⟨c, hc, h⟩
    | true =>
      -- A colon or an equal sign in front would not belong to the tree.
      generalize htokens : token :: rest = us at h
      cases h with
      | ascription _ ht =>
        obtain ⟨-, rfl⟩ := List.cons.inj htokens
        exact absurd hloc (ht.not_before hbehind)
      | default _ he =>
        obtain ⟨-, rfl⟩ := List.cons.inj htokens
        exact absurd hloc (he.not_before hbehind)
      | result he => exact ⟨.expr, rfl, htokens ▸ he⟩
      | noAscription | noDefault | noResult => cases htokens
      | _ => cases hc
  · intro henclosed
    obtain ⟨lparen, ts, rparen, -, he, -, htokens⟩ := henclosed
    obtain ⟨rfl, rfl⟩ := List.cons.inj htokens
    refine he.not_before (fun token' htoken' => ?_) hloc
    exact hbehind token' (List.mem_append_left _ htoken')

/-- A name or a literal is one of the tokens of its phrase. -/
theorem Phrase.token_of_atom (h : Phrase c tokens n) (hatom : n.isAtom = true) :
    ∃ token ∈ tokens, Phrase .primary [token] n := by
  have whole := h
  induction h with
  | name | integer | fraction | string | rawString | character | interpolation | isTrue | isFalse
  | null => exact ⟨_, List.mem_cons_self, whole⟩
  | nested h ih | ofConjunction h ih | ofComparison h ih | ofSum h ih | ofTerm h ih | ofUnary h ih
  | ofSuffixed h ih | ofPrimary h ih | exprArg h ih | result h ih => exact ih hatom h
  | ascription _ h ih | default _ h ih =>
    obtain ⟨token, htoken, hphrase⟩ := ih hatom h
    exact ⟨token, List.mem_cons_of_mem _ htoken, hphrase⟩
  | parentheses _ h _ ih =>
    obtain ⟨token, htoken, hphrase⟩ := ih hatom h
    exact ⟨token, List.mem_cons_of_mem _ (List.mem_append_left _ htoken), hphrase⟩
  | pointer | slice | array => cases hatom
  | _ => cases hatom

/-- What is one token stands there. -/
theorem Phrase.loc_of_single {loc : Loc} (h : Phrase c [token] n) (hloc : n.loc? = some loc) :
    loc = token.loc := by
  obtain ⟨_, token', _, hinside, -, heq⟩ := h.begins _ hloc
  have hmem := hinside.subset List.mem_cons_self
  rw [List.mem_singleton.1 hmem] at heq
  exact heq

theorem Phrase.text_of_name {loc : Loc} {ident : Text}
    (h : Phrase .primary [token] (.name loc ident)) :
    token.terminal = .name ∧ token.text = ident := by
  generalize htokens : [token] = us at h
  cases h with
  | name h =>
    cases htokens
    exact ⟨h, rfl⟩
  | parentheses => simp at htokens

/-- Every node with a place stands at the first token of its text. Names and literals have no other
token. -/
theorem Phrase.part_text {part : Node} {loc : Loc} (h : Phrase c tokens n)
    (hrise : tokens.Pairwise fun a b => a.loc < b.loc) (hpart : part.IsPartOf n)
    (hloc : part.loc? = some loc) :
    ∃ token rest, token :: rest <:+: tokens ∧ part.IsTextOf (token :: rest) ∧ loc = token.loc ∧
      (part.isAtom = true → rest = [] ∧ Phrase .primary [token] part) := by
  obtain ⟨c, token, rest, hinside, hphrase, heq⟩ := h.part_begins hpart loc hloc
  cases hatom : part.isAtom with
  | false =>
    refine ⟨token, rest, hinside, ?_, heq, nofun⟩
    exact hphrase.isTextOf (heq ▸ hloc) (hrise.sublist hinside.sublist)
  | true =>
    obtain ⟨token', htoken', hsingle⟩ := hphrase.token_of_atom hatom
    have heq' := hsingle.loc_of_single hloc
    obtain ⟨before, after, happend⟩ := List.append_of_mem htoken'
    refine ⟨token', [], ?_, ?_, heq', fun _ => ⟨rfl, hsingle⟩⟩
    · exact List.IsInfix.trans ⟨before, after, by simp [happend]⟩ hinside
    · exact hsingle.isTextOf (heq' ▸ hloc) (List.pairwise_singleton _ _)

/-- The nodes of a phrase do not stand before its first token. -/
theorem Phrase.part_not_before {part : Node} {loc : Loc} (h : Phrase c (token :: rest) n)
    (hrise : (token :: rest).Pairwise fun a b => a.loc < b.loc) (hpart : part.IsPartOf n)
    (hloc : part.loc? = some loc) : token.loc ≤ loc := by
  obtain ⟨_, token', _, hinside, -, rfl⟩ := h.part_begins hpart loc hloc
  have hmem := hinside.subset List.mem_cons_self
  rcases List.mem_cons.1 hmem with rfl | hmem
  · exact Loc.le_refl _
  · exact Loc.le_of_lt ((List.pairwise_cons.1 hrise).1 token' hmem)

end Located

/-- A node of a program stands at the first token of its text, which is at its offset in the source.
The nodes inside it do not stand before it, a name or a literal is the token that the source has
there, and no place is one that no source has. -/
theorem Program.part_located {source : Text} {p : Program} (h : parseProgram source = .ok p)
    {n part : Node} (hn : n ∈ p) (hpart : part.IsPartOf n) {loc : Loc}
    (hloc : part.loc? = some loc) :
    (∃ token rest, token :: rest <:+: (Lexed.ofText source).tokens ∧ token.StandsIn source ∧
      part.IsTextOf (token :: rest) ∧ loc = Loc.ofOffset source token.offset ∧
      (part.isAtom = true → rest = [] ∧ Phrase .primary [token] part) ∧
      ∀ ident, part = .name loc ident → token.terminal = .name ∧ token.text = ident) ∧
    (∀ inner : Node, inner.IsPartOf part → ∀ loc', inner.loc? = some loc' → loc ≤ loc') ∧
    loc ≠ ⟨0, 0⟩ := by
  obtain ⟨-, ss, htokens, rfl, hss⟩ := (@parse_eq_ok_iff_isTree .program source p).1 h
  obtain ⟨s, hs, rfl⟩ := List.mem_map.1 hn
  have hstatement : s.1 <:+: (Lexed.ofText source).tokens := by
    rw [htokens]
    exact List.infix_of_mem_flatten (List.mem_map_of_mem hs)
  have hrise := Lexed.pairwise_loc_lt source
  obtain ⟨token, rest, hinside, htext, hplace, hatom⟩ :=
    (hss s hs).part_text (hrise.sublist hstatement.sublist) hpart hloc
  have hinside := hinside.trans hstatement
  have hmem := hinside.subset List.mem_cons_self
  have hoffset : loc = Loc.ofOffset source token.offset :=
    hplace.trans (Token.loc_eq_ofOffset hmem).2
  refine ⟨⟨token, rest, hinside, Lexed.standsIn_of_mem hmem, htext, hoffset, hatom, ?_⟩, ?_, ?_⟩
  · intro ident hname
    subst hname
    exact (hatom rfl).2.text_of_name
  · intro inner hinner loc' hloc'
    obtain ⟨c, -, hphrase⟩ := htext.phrase
    rw [hplace]
    exact hphrase.part_not_before (hrise.sublist hinside.sublist) hinner hloc'
  · intro hnowhere
    have hline := (Loc.one_le_ofOffset source token.offset).1
    rw [← hoffset, hnowhere] at hline
    exact absurd hline (by decide)

/-- The member of a name in parentheses stands at the parenthesis, and the name behind it. -/
theorem Program.part_located_member :
    let source : Text := (['(', 'a', ')', '.', 'b', ';'] : Text)
    let member : Node := .member ⟨1, 1⟩ (.name ⟨1, 2⟩ ['a']) ['b']
    parseProgram source = .ok [.evaluate ⟨1, 1⟩ member] ∧
      (∃ token rest, token :: rest <:+: (Lexed.ofText source).tokens ∧
        member.IsTextOf (token :: rest) ∧ (⟨1, 1⟩ : Loc) = Loc.ofOffset source token.offset) ∧
      (⟨1, 1⟩ : Loc) ≤ ⟨1, 2⟩ := by
  intro source member
  have hparse : parseProgram source = .ok [.evaluate ⟨1, 1⟩ member] := by
    have htokens : (Lexed.ofText source).tokens = [⟨.mark .lparen, ['('], 0, ⟨1, 1⟩⟩,
        ⟨.name, ['a'], 1, ⟨1, 2⟩⟩, ⟨.mark .rparen, [')'], 2, ⟨1, 3⟩⟩,
        ⟨.mark .dot, ['.'], 3, ⟨1, 4⟩⟩, ⟨.name, ['b'], 4, ⟨1, 5⟩⟩,
        ⟨.mark .semicolon, [';'], 5, ⟨1, 6⟩⟩] := by decide +kernel
    refine (@parse_eq_ok_iff_isTree .program source _).2 ⟨by decide +kernel, ?_⟩
    rw [htokens]
    refine ⟨[(_, .evaluate ⟨1, 1⟩ member)], (List.append_nil _).symm, rfl,
      List.forall_mem_singleton.2 ?_⟩
    have hname : Phrase .expr [⟨.name, ['a'], 1, ⟨1, 2⟩⟩] (.name ⟨1, 2⟩ ['a']) :=
      Phrase.toExpr (.ofPrimary (.name rfl))
    exact .evaluate (Phrase.toExpr (.member (.ofPrimary (.parentheses rfl hname rfl)) rfl rfl)) rfl
  have hmember : member.IsPartOf (.evaluate ⟨1, 1⟩ member) :=
    .inside (List.mem_singleton.2 rfl) .self
  obtain ⟨⟨token, rest, hinside, -, htext, hplace, -⟩, hinner, -⟩ :=
    Program.part_located hparse (List.mem_singleton.2 rfl) hmember rfl
  refine ⟨hparse, ⟨token, rest, hinside, htext, hplace⟩, ?_⟩
  exact hinner (.name ⟨1, 2⟩ ['a']) (.inside (List.mem_singleton.2 rfl) .self) _ rfl

end Splice
