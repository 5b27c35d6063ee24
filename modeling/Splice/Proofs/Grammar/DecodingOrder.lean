import Mathlib.Data.List.Chain
import Splice.Proofs.Grammar.Decoding
import Splice.Proofs.Grammar.Reading
import Splice.Proofs.Grammar.Viable

/-!
# The order in which literals are decoded

While a tree is built, the literals of a text are decoded one by one, and the first one without a
value is the one that is reported. They are decoded in the order in which they stand, but the
default value of a parameter is decoded before the type of the parameter.

* `Decodes`: the tokens of a derivation in the order in which they are decoded.
* `Derives.exists_order`: every derivation has such an order.
* `Decodes.head_faults`: the first fault in this order is why there is no value.
* `Token.Shares`: one token stands in the type of a parameter, and another one in its default value.
* `Decodes.pairwise`: only for such tokens the order is another one than that of the text.
-/

namespace Splice

/-- A row of symbols derives a row of tokens, which are decoded in an order. -/
inductive Decodes :
    (rhs : List Symbol) → Symbol.Values rhs → Loc → (tokens order : List Token) → Prop
  | nil : Decodes [] () .start [] []
  | token {t : Terminal} {rest : List Symbol} {values : Symbol.Values rest} {start : Loc}
    {tokens order : List Token} (token : Token) (kind : token.terminal = t)
    (later : Decodes rest values start tokens order) :
    Decodes (.terminal t :: rest) (token, values) token.loc (token :: tokens) (token :: order)
  | node {p : Production} {rest : List Symbol} {inner : Symbol.Values p.rhs}
    {values : Symbol.Values rest} {start start' : Loc} {tokens tokens' order order' : List Token}
    (mem : p ∈ Production.all) (hp : p ≠ .defaulted)
    (below : Decodes p.rhs inner start tokens order)
    (later : Decodes rest values start' tokens' order') :
    Decodes (.nonterminal p.lhs :: rest) (p.build start inner, values) start (tokens ++ tokens')
      (order ++ order')
  /-- `NAME ":" type "=" expr` -/
  | defaulted {rest : List Symbol} {t e : Decoded Node} {values : Symbol.Values rest}
    {startType startDefault start' : Loc} {ident colon equal : Token}
    {ts us ts' us' tokens' order' : List Token} (hident : ident.terminal = .name)
    (hcolon : colon.terminal = .mark .colon)
    (ht : Decodes [.nonterminal .type] (t, ()) startType ts ts')
    (hequal : equal.terminal = .mark .equal)
    (he : Decodes [.nonterminal .expr] (e, ()) startDefault us us')
    (later : Decodes rest values start' tokens' order') :
    Decodes (.nonterminal .param :: rest)
      (Production.defaulted.build ident.loc (ident, colon, t, equal, e, ()), values) ident.loc
      (ident :: colon :: (ts ++ equal :: us) ++ tokens')
      (ident :: colon :: equal :: (us' ++ ts') ++ order')

namespace Decodes

variable {s : Symbol} {rhs rest : List Symbol} {values : Symbol.Values rhs} {start : Loc}
  {tokens order : List Token}

/-- What is decoded for a row is decoded for its first symbol and for the others. -/
theorem uncons {all : Symbol.Values (s :: rest)} (h : Decodes (s :: rest) all start tokens order) :
    ∃ ts us ts' us' start', tokens = ts ++ us ∧ order = ts' ++ us' ∧
      Decodes [s] (all.1, ()) start ts ts' ∧ Decodes rest all.2 start' us us' := by
  cases h with
  | token token kind later =>
    exact ⟨[token], _, [token], _, _, rfl, rfl, .token token kind .nil, later⟩
  | @node p _ _ _ _ _ ts _ ts' _ mem hp below later =>
    have hone := Decodes.node mem hp below .nil
    rw [List.append_nil, List.append_nil] at hone
    exact ⟨ts, _, ts', _, _, rfl, rfl, hone, later⟩
  | defaulted hident hcolon ht hequal he later =>
    have hone := Decodes.defaulted hident hcolon ht hequal he .nil
    rw [List.append_nil, List.append_nil] at hone
    exact ⟨_, _, _, _, _, rfl, rfl, hone, later⟩

/-- What is decoded is derived. -/
theorem derivable (h : Decodes rhs values start tokens order) : Derivable rhs tokens := by
  induction h with
  | nil => exact .nil
  | token token kind _ ih => exact (Derivable.token token kind).append ih
  | node mem _ _ _ ihbelow ihlater => exact (Derivable.node mem ihbelow).append ihlater
  | @defaulted _ _ _ _ _ _ _ ident colon equal _ _ _ _ _ _ hident hcolon _ hequal _ _ iht ihe
      ihlater =>
    have hrow := (Derivable.token ident hident).append ((Derivable.token colon hcolon).append
      (iht.append ((Derivable.token equal hequal).append ihe)))
    exact (Derivable.node (Production.mem_functions (k := 9) rfl) hrow).append ihlater

/-- Every token is decoded once. -/
theorem perm (h : Decodes rhs values start tokens order) : order.Perm tokens := by
  induction h with
  | nil => exact .nil
  | token token _ _ ih => exact ih.cons token
  | node _ _ _ _ ihbelow ihlater => exact ihbelow.append ihlater
  | @defaulted _ _ _ _ _ _ _ ident colon equal ts us ts' us' _ _ _ _ _ _ _ _ iht ihe ihlater =>
    refine List.Perm.append (.cons ident (.cons colon ?_)) ihlater
    have hswap : (us' ++ ts').Perm (ts ++ us) := (ihe.append iht).trans List.perm_append_comm
    exact (hswap.cons equal).trans List.perm_middle.symm

/-- The first fault in the order of decoding is why the symbols have no values. -/
theorem head_faults (h : Decodes rhs values start tokens order) :
    (Symbol.Values.faults rhs values).head? =
      (order.flatMap fun token => token.terminal.faults token).head? := by
  induction h with
  | nil => rfl
  | token token kind _ ih =>
    subst kind
    rw [Symbol.Values.faults, List.flatMap_cons, List.head?_append, List.head?_append, ih]
  | @node p _ inner _ start _ _ _ _ _ mem hp _ _ ihbelow ihlater =>
    have hordered := (Production.isOrdered_of_mem mem).resolve_left hp start inner
    rw [Symbol.Values.faults, List.flatMap_append, List.head?_append, List.head?_append,
      ← ihbelow, hordered, ihlater]
  | @defaulted _ t e _ _ _ _ ident colon equal _ _ _ _ _ _ hident hcolon _ hequal _ _ iht ihe
      ihlater =>
    have hplain : ident.terminal.faults ident = [] ∧ colon.terminal.faults colon = [] ∧
        equal.terminal.faults equal = [] := by
      rw [hident, hcolon, hequal]
      exact ⟨rfl, rfl, rfl⟩
    obtain ⟨hident, hcolon, hequal⟩ := hplain
    have hbuild : (Production.defaulted.build ident.loc
        (ident, colon, t, equal, e, ())).faults.head? = e.faults.head?.or t.faults.head? := by
      cases e <;> cases t <;> rfl
    simp only [Symbol.Values.faults, List.append_nil] at iht ihe
    have ht : t.faults.head? = _ := iht
    have he : e.faults.head? = _ := ihe
    show (Decoded.faults (Production.defaulted.build ident.loc (ident, colon, t, equal, e, ())) ++
      Symbol.Values.faults _ _).head? = _
    rw [List.head?_append, hbuild, he, ht, ihlater, List.flatMap_append, List.head?_append,
      List.flatMap_cons, List.flatMap_cons, List.flatMap_cons, hident, hcolon, hequal,
      List.nil_append, List.nil_append, List.nil_append, List.flatMap_append, List.head?_append]

end Decodes

/-- Every derivation has an order in which its tokens are decoded. -/
theorem Derives.exists_order {rhs : List Symbol} {values : Symbol.Values rhs} {start : Loc}
    {tokens : List Token} (h : Derives rhs values start tokens) :
    ∃ order, Decodes rhs values start tokens order := by
  induction h with
  | nil => exact ⟨[], .nil⟩
  | token token kind _ ih =>
    obtain ⟨order, hlater⟩ := ih
    exact ⟨token :: order, .token token kind hlater⟩
  | @node p _ inner _ start _ _ _ mem _ _ ihbelow ihlater =>
    obtain ⟨order, hbelow⟩ := ihbelow
    obtain ⟨order', hlater⟩ := ihlater
    -- The production with the default value has an order of its own, so its row is taken apart.
    by_cases hp : p = .defaulted
    · subst hp
      obtain ⟨ident, colon, t, equal, e, ⟨⟩⟩ := inner
      obtain ⟨_, _, _, _, _, rfl, rfl, hident, hbelow⟩ := hbelow.uncons
      obtain ⟨_, _, _, _, _, rfl, rfl, hcolon, hbelow⟩ := hbelow.uncons
      obtain ⟨_, _, _, _, _, rfl, rfl, ht, hbelow⟩ := hbelow.uncons
      obtain ⟨_, _, _, _, _, rfl, rfl, hequal, he⟩ := hbelow.uncons
      cases hident with
      | token _ hident last =>
        cases last
        cases hcolon with
        | token _ hcolon last =>
          cases last
          cases hequal with
          | token _ hequal last =>
            cases last
            exact ⟨_, .defaulted hident hcolon ht hequal he hlater⟩
    · exact ⟨_, .node mem hp hbelow hlater⟩

/-! ## What is decoded out of turn -/

/-- One token stands in the type of a parameter, and the other one in the default value behind it or
is the sign between them. In front of the parameter is the parenthesis or the comma of the list. -/
def Token.Shares (tokens : List Token) (early late : Token) : Prop :=
  ∃ lead ident colon ts equal us, lead :: ident :: colon :: (ts ++ equal :: us) <:+: tokens ∧
    (lead.terminal = .mark .lparen ∨ lead.terminal = .mark .comma) ∧ ident.terminal = .name ∧
    colon.terminal = .mark .colon ∧ Derivable [.nonterminal .type] ts ∧
    equal.terminal = .mark .equal ∧ Derivable [.nonterminal .expr] us ∧
    early ∈ ts ∧ late ∈ equal :: us

theorem Token.Shares.mono {tokens tokens' : List Token} {early late : Token}
    (h : Shares tokens early late) (hinside : tokens <:+: tokens') : Shares tokens' early late := by
  obtain ⟨lead, ident, colon, ts, equal, us, hparam, hrest⟩ := h
  exact ⟨lead, ident, colon, ts, equal, us, hparam.trans hinside, hrest⟩

/-- What stands in front of a text is no part of its parameters. -/
theorem Token.Shares.of_cons {first : Token} {tokens : List Token} {early late : Token}
    (h : Shares (first :: tokens) early late) (hparen : first.terminal ≠ .mark .lparen)
    (hcomma : first.terminal ≠ .mark .comma) : Shares tokens early late := by
  obtain ⟨lead, ident, colon, ts, equal, us, hparam, hlead, hrest⟩ := h
  rcases List.infix_cons_iff.1 hparam with hstarts | hinside
  · obtain ⟨rfl, -⟩ := List.cons_prefix_cons.1 hstarts
    rcases hlead with hlead | hlead
    · exact absurd hlead hparen
    · exact absurd hlead hcomma
  · exact ⟨lead, ident, colon, ts, equal, us, hinside, hlead, hrest⟩

/-- A parameter may stand first among the tokens of a symbol. -/
def Symbol.opensParam : Symbol → Bool
  | .nonterminal .param | .nonterminal .params => true
  | _ => false

/-- In front of a parameter is a parenthesis or a comma. -/
def Symbol.Leads (a b : Symbol) : Prop :=
  b.opensParam = true → a = .mark .lparen ∨ a = .mark .comma

instance (a b : Symbol) : Decidable (a.Leads b) := inferInstanceAs (Decidable (_ → _))

theorem Production.leads_of_mem : ∀ p ∈ all, p.rhs.IsChain Symbol.Leads ∧
    (∀ s ∈ p.rhs.head?, s.opensParam = true → (Symbol.nonterminal p.lhs).opensParam = true) := by
  decide +kernel

namespace Decodes

variable {rhs : List Symbol} {values : Symbol.Values rhs} {start : Loc}
  {tokens order : List Token}

/-- One token is decoded before another one because it stands before it, or because it belongs to
the default value of a parameter and the other one to its type. -/
def InTurn (tokens : List Token) (a b : Token) : Prop :=
  a.offset < b.offset ∨ Token.Shares tokens b a

theorem InTurn.mono {tokens tokens' : List Token} (hinside : tokens <:+: tokens') {a b : Token}
    (h : InTurn tokens a b) : InTurn tokens' a b := h.imp_right (·.mono hinside)

/-- What follows a nonterminal is no parameter, so the token in front of it does not matter. -/
theorem pairwise_behind {n : Nonterminal} {rest : List Symbol} {lead : Token}
    {front tokens order : List Token} (hnext : ∀ s ∈ rest.head?, (Symbol.nonterminal n).Leads s)
    (h : ∀ lead : Token, (∀ s ∈ rest.head?, s.opensParam = true →
      lead.terminal = .mark .lparen ∨ lead.terminal = .mark .comma) →
        order.Pairwise (InTurn (lead :: tokens))) :
    order.Pairwise (InTurn (lead :: (front ++ tokens))) := by
  -- The last token of the part in front takes the place of `lead`.
  obtain ⟨init, last, hsplit⟩ : ∃ init last, lead :: front = init ++ [last] :=
    ⟨_, _, (List.dropLast_append_getLast (List.cons_ne_nil _ _)).symm⟩
  have hbehind := h last fun s hs hparam => by rcases hnext s hs hparam with h | h <;> cases h
  refine hbehind.imp (InTurn.mono ⟨init, [], ?_⟩)
  rw [← List.cons_append, hsplit]
  simp

/-- The order is that of the text, except for the tokens of parameters with a default value. The row
stands behind the token `lead`. -/
theorem pairwise (h : Decodes rhs values start tokens order)
    (hrise : tokens.Pairwise fun a b => a.offset < b.offset) (hrow : rhs.IsChain Symbol.Leads)
    (lead : Token) (hlead : ∀ s ∈ rhs.head?, s.opensParam = true →
      lead.terminal = .mark .lparen ∨ lead.terminal = .mark .comma) :
    order.Pairwise (InTurn (lead :: tokens)) := by
  -- The token in front of the row changes from part to part, so it is arbitrary.
  induction h generalizing lead with
  | nil => exact .nil
  | @token t rest values start tokens order token kind hlater ih =>
    obtain ⟨hfirst, hrise⟩ := List.pairwise_cons.1 hrise
    obtain ⟨hnext, hrow⟩ := List.isChain_cons.1 hrow
    refine .cons (fun b hb => .inl (hfirst b (hlater.perm.subset hb))) ?_
    refine (ih hrise hrow token fun s hs hparam => ?_).imp (InTurn.mono ⟨[lead], [], by simp⟩)
    rw [kind]
    simpa using hnext s hs hparam
  | @node p rest _ _ _ _ tokens tokens' order order' mem _ hbelow hlater ihbelow ihlater =>
    obtain ⟨hrise, hrise', hcross⟩ := List.pairwise_append.1 hrise
    obtain ⟨hnext, hrow⟩ := List.isChain_cons.1 hrow
    obtain ⟨hinner, hopens⟩ := Production.leads_of_mem p mem
    have hfirst : order.Pairwise (InTurn (lead :: tokens)) :=
      ihbelow hrise hinner lead fun s hs hparam => hlead _ rfl (hopens s hs hparam)
    refine List.pairwise_append.2 ⟨?_, pairwise_behind hnext (ihlater hrise' hrow), ?_⟩
    · exact hfirst.imp (InTurn.mono ⟨[], tokens', rfl⟩)
    · exact fun a ha b hb => .inl (hcross a (hbelow.perm.subset ha) b (hlater.perm.subset hb))
  | @defaulted rest t e values _ _ _ ident colon equal ts us ts' us' tokens' order' hident hcolon ht
      hequal he hlater iht ihe ihlater =>
    obtain ⟨hparam, hrise', hcross⟩ := List.pairwise_append.1 hrise
    obtain ⟨hidentLt, hparam⟩ := List.pairwise_cons.1 hparam
    obtain ⟨hcolonLt, hparam⟩ := List.pairwise_cons.1 hparam
    obtain ⟨hriseType, hdefault, -⟩ := List.pairwise_append.1 hparam
    obtain ⟨hequalLt, hriseDefault⟩ := List.pairwise_cons.1 hdefault
    obtain ⟨hnext, hrow⟩ := List.isChain_cons.1 hrow
    -- The equal sign and the default value are decoded before the type, so the order is only a
    -- permutation of the row.
    have hperm : (equal :: (us' ++ ts')).Perm (ts ++ equal :: us) := by
      have hparts : (us' ++ ts').Perm (ts ++ us) :=
        (he.perm.append ht.perm).trans List.perm_append_comm
      exact (hparts.cons equal).trans List.perm_middle.symm
    have hall : (ident :: colon :: equal :: (us' ++ ts')).Perm
        (ident :: colon :: (ts ++ equal :: us)) := .cons ident (.cons colon hperm)
    have hwhole : lead :: ident :: colon :: (ts ++ equal :: us) <:+:
        lead :: (ident :: colon :: (ts ++ equal :: us) ++ tokens') := ⟨[], tokens', rfl⟩
    have htypes : ts'.Pairwise (InTurn (colon :: ts)) :=
      iht hriseType (.singleton _) colon fun s hs hparam => by cases hs; cases hparam
    have hdefaults : us'.Pairwise (InTurn (equal :: us)) :=
      ihe hriseDefault (.singleton _) equal fun s hs hparam => by cases hs; cases hparam
    -- Here `lead` is needed: it shows that the row is a parameter and not some other part of the
    -- text.
    have hshares : ∀ a ∈ equal :: us', ∀ b ∈ ts', Token.Shares
        (lead :: (ident :: colon :: (ts ++ equal :: us) ++ tokens')) b a := by
      intro a ha b hb
      refine ⟨lead, ident, colon, ts, equal, us, hwhole, hlead _ rfl rfl, hident, hcolon,
        ht.derivable, hequal, he.derivable, ht.perm.subset hb, ?_⟩
      exact (he.perm.cons equal).subset ha
    refine List.pairwise_append.2 ⟨?_, pairwise_behind hnext (ihlater hrise' hrow), ?_⟩
    · refine .cons (fun b hb => .inl (hidentLt b ((hperm.cons colon).subset hb))) ?_
      refine .cons (fun b hb => .inl (hcolonLt b (hperm.subset hb))) ?_
      rw [← List.cons_append]
      refine List.pairwise_append.2 ⟨.cons (fun b hb => .inl (hequalLt b (he.perm.subset hb))) ?_,
        ?_, fun a ha b hb => .inr (hshares a ha b hb)⟩
      · exact hdefaults.imp (InTurn.mono ⟨lead :: ident :: colon :: ts, tokens', by simp⟩)
      · exact htypes.imp (InTurn.mono ⟨[lead, ident], equal :: us ++ tokens', by simp⟩)
    · exact fun a ha b hb => .inl (hcross a (hall.subset ha) b (hlater.perm.subset hb))

end Decodes

end Splice
