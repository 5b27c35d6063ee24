import Splice.Proofs.Literal.Tokens
import Splice.Proofs.Phrase.Basic
import Splice.Proofs.Syntax.Nodes

/-!
# Where the parts of a phrase begin

The parts of a tree are the trees of phrases among the tokens, and each of them stands where the
first token of its own phrase does.

* `Phrase.begins`: a tree stands where its phrase begins, up to parentheses around it.
* `Phrases`: trees of phrases that stand one behind the other.
* `Phrase.children`: what is below the tree of a phrase has phrases in it, in this order.
* `Phrase.part_begins`: so every node of a tree stands where its own phrase begins.
* `Phrase.token_of_interpolation`: an interpolated literal is the value of a token.
-/

namespace Splice

/-- A tree is that of a phrase among the tokens, and if it has a place, it is that of the first
token of the phrase. -/
def Node.BeginsIn (tokens : List Token) (n : Node) : Prop :=
  ∀ loc, n.loc? = some loc →
    ∃ c token rest, token :: rest <:+: tokens ∧ Phrase c (token :: rest) n ∧ loc = token.loc

section Begins

variable {c : Category} {tokens tokens' : List Token} {n : Node}

theorem Node.BeginsIn.mono (h : n.BeginsIn tokens) (hinside : tokens <:+: tokens') :
    n.BeginsIn tokens' := by
  intro loc hloc
  obtain ⟨c, token, rest, hrest, hphrase, heq⟩ := h loc hloc
  exact ⟨c, token, rest, hrest.trans hinside, hphrase, heq⟩

/-- A phrase whose tree has the place of its first token. -/
theorem Node.BeginsIn.whole (h : Phrase c tokens n) (hc : c.isOptional = false)
    (hloc : ∀ loc, n.loc? = some loc → loc = startOf tokens) : n.BeginsIn tokens := by
  intro loc heq
  obtain ⟨token, rest, rfl⟩ := List.exists_cons_of_ne_nil (h.ne_nil hc)
  exact ⟨c, token, rest, List.infix_refl _, h, hloc loc heq⟩

theorem Phrase.loc_of_type {reserved : Bool} (h : Phrase (.type reserved) tokens n) :
    n.loc? = some (startOf tokens) := by
  generalize hc : Category.type reserved = c at h
  induction h with
  | builtin | qualified | named => rfl
  | template h => exact congrArg some (startOf_append h.ne_nil _).symm
  | pointer h _ ih | slice h _ _ ih | array h _ _ _ ih =>
    rw [startOf_append (h.ne_nil rfl)]
    exact ih hc
  | _ => cases hc

/-- A tree stands where its phrase begins, up to parentheses around it. -/
theorem Phrase.begins (h : Phrase c tokens n) : n.BeginsIn tokens := by
  have whole := h
  induction h with
  | declare | function | giveBack | block | unary | name | integer | fraction | string | rawString
  | character | isTrue | isFalse | null | mixin | builtin | qualified | named | typeArg =>
    refine .whole whole rfl ?_
    rintro _ ⟨⟩
    rfl
  | interpolation h hi =>
    refine .whole whole rfl ?_
    rintro _ ⟨⟩
    exact (Interpolation.ofToken_eq_ok.1 hi).1
  | evaluate hl | or hl | and hl | comparison _ hl | sum _ hl | product _ hl | call hl | member hl
  | index hl | instantiate hl =>
    refine .whole whole rfl ?_
    rintro _ ⟨⟩
    exact (startOf_append (hl.ne_nil rfl) _).symm
  | template h =>
    refine .whole whole rfl ?_
    rintro _ ⟨⟩
    exact (startOf_append h.ne_nil _).symm
  | pointer | slice | array =>
    refine .whole whole rfl fun loc hloc => ?_
    rw [whole.loc_of_type] at hloc
    exact (Option.some.inj hloc).symm
  | nested h ih | ofConjunction h ih | ofComparison h ih | ofSum h ih | ofTerm h ih | ofUnary h ih
  | ofSuffixed h ih | ofPrimary h ih | exprArg h ih | result h ih => exact ih h
  | ascription _ h ih | default _ h ih => exact (ih h).mono (List.infix_cons (List.infix_refl _))
  | parentheses _ h _ ih => exact (ih h).mono ⟨[_], [_], rfl⟩
  | param | noAscription | noDefault | noResult => nofun

/-- A tree is that of a phrase among the tokens. -/
def Node.HasPhrase (tokens : List Token) (n : Node) : Prop := ∃ c us, us <:+: tokens ∧ Phrase c us n

theorem Node.HasPhrase.mono (h : n.HasPhrase tokens) (hinside : tokens <:+: tokens') :
    n.HasPhrase tokens' := by
  obtain ⟨c, us, hus, hphrase⟩ := h
  exact ⟨c, us, hus.trans hinside, hphrase⟩

theorem Tail.contains {items : List (List Token)} (h : Tail items tokens) :
    ∀ item ∈ items, item <:+: tokens := by
  induction h with
  | nil => nofun
  | @cons comma item later items _ _ ih =>
    refine List.forall_mem_cons.2 ⟨⟨[comma], later, rfl⟩, fun us hus => ?_⟩
    exact (ih us hus).trans (List.infix_cons (List.suffix_append item later).isInfix)

theorem Row.contains {items : List (List Token)} (h : Row items tokens) :
    ∀ item ∈ items, item <:+: tokens := by
  cases h with
  | nothing => nofun
  | @items item later items h =>
    refine List.forall_mem_cons.2 ⟨⟨[], later, rfl⟩, fun us hus => ?_⟩
    exact (h.contains us hus).trans (List.suffix_append item later).isInfix

/-! ## Rows of phrases -/

/-- The nodes are the trees of phrases that stand among the tokens, one behind the other. -/
inductive Phrases : List Node → List Token → Prop
  | nil {tokens : List Token} : Phrases [] tokens
  | cons {c : Category} {front ts rest : List Token} {n : Node} {ns : List Node}
    (h : Phrase c ts n) (later : Phrases ns rest) : Phrases (n :: ns) (front ++ (ts ++ rest))

namespace Phrases

variable {ns ns' : List Node} {ts us : List Token} {ps : List (List Token × Node)}

theorem prepend (front : List Token) (h : Phrases ns ts) : Phrases ns (front ++ ts) := by
  cases h with
  | nil => exact .nil
  | cons h later =>
    rw [← List.append_assoc]
    exact .cons h later

theorem append (h : Phrases ns ts) (h' : Phrases ns' us) : Phrases (ns ++ ns') (ts ++ us) := by
  induction h with
  | nil => exact h'.prepend _
  | cons h _ ih =>
    rw [List.append_assoc, List.append_assoc]
    exact .cons h ih

theorem extend (h : Phrases ns ts) (back : List Token) : Phrases ns (ts ++ back) := by
  have hback : Phrases [] back := .nil
  have hend := h.append hback
  rwa [List.append_nil] at hend

theorem first (h : Phrase c ts n) (later : Phrases ns us) : Phrases (n :: ns) (ts ++ us) := by
  rw [← List.nil_append (ts ++ us)]
  exact .cons h later

theorem whole (h : Phrase c tokens n) : Phrases [n] tokens := by
  have hone : Phrases [n] (tokens ++ []) := first h .nil
  rwa [List.append_nil] at hone

/-- A part that was left out. -/
theorem missing (tokens : List Token) : Phrases [.missing] tokens := first .noResult .nil

theorem of_flatten (h : ∀ p ∈ ps, Phrase c p.1 p.2) :
    Phrases (ps.map (·.2)) (ps.map (·.1)).flatten := by
  induction ps with
  | nil => exact .nil
  | cons p ps ih =>
    obtain ⟨hfirst, hlater⟩ := List.forall_mem_cons.1 h
    exact first hfirst (ih hlater)

theorem of_tail (h : ∀ p ∈ ps, Phrase c p.1 p.2) (htail : Tail (ps.map (·.1)) ts) :
    Phrases (ps.map (·.2)) ts := by
  induction ps generalizing ts with
  | nil => exact .nil
  | cons p ps ih =>
    obtain ⟨hfirst, hlater⟩ := List.forall_mem_cons.1 h
    cases htail with
    | @cons comma _ _ _ _ htail => exact (first hfirst (ih hlater htail)).prepend [comma]

theorem of_row (h : ∀ p ∈ ps, Phrase c p.1 p.2) (hrow : Row (ps.map (·.1)) ts) :
    Phrases (ps.map (·.2)) ts := by
  cases ps with
  | nil => exact .nil
  | cons p ps =>
    obtain ⟨hfirst, hlater⟩ := List.forall_mem_cons.1 h
    cases hrow with
    | items htail => exact first hfirst (of_tail hlater htail)

theorem hasPhrase (h : Phrases ns ts) : ∀ n ∈ ns, n.HasPhrase ts := by
  induction h with
  | nil => nofun
  | @cons c front us rest n _ h _ ih =>
    have hrest : rest <:+: front ++ (us ++ rest) := ⟨front ++ us, [], by simp⟩
    refine List.forall_mem_cons.2 ⟨⟨c, us, ⟨front, rest, by simp⟩, h⟩, fun child hchild => ?_⟩
    exact (ih child hchild).mono hrest

end Phrases

/-- The nodes below the tree of a phrase are the trees of phrases in it, in this order. -/
theorem Phrase.children (h : Phrase c tokens n) : Phrases n.children tokens := by
  -- The children come in the order of their phrases, with marks and words in front of them,
  -- between them and behind them.
  induction h with
  | name | integer | fraction | string | rawString | character | interpolation | isTrue | isFalse
  | null | noAscription | noDefault | noResult => exact .nil
  | nested _ ih | ofConjunction _ ih | ofComparison _ ih | ofSum _ ih | ofTerm _ ih | ofUnary _ ih
  | ofSuffixed _ ih | ofPrimary _ ih | exprArg _ ih | result _ ih => exact ih
  | @ascription colon _ _ _ _ ih => exact ih.prepend [colon]
  | @default equal _ _ _ _ ih => exact ih.prepend [equal]
  | @parentheses lparen rparen _ _ _ _ _ ih => exact (ih.extend [rparen]).prepend [lparen]
  -- A type without a size has a child for it, which is missing and stands anywhere.
  | builtin | named => exact .missing _
  | @declare word ident equal semicolon _ _ _ _ _ _ ht _ he =>
    have hvalue := ((Phrases.whole he).extend [semicolon]).prepend [equal]
    exact ((Phrases.whole ht).append hvalue).prepend [word, ident]
  | @function word ident lparen rparen _ _ _ _ _ _ _ _ _ hps hrow _ ht hbody =>
    have hbehind := ((Phrases.whole ht).append (.whole hbody)).prepend [rparen]
    exact ((Phrases.of_row hps hrow).append hbehind).prepend [word, ident, lparen]
  | @giveBack word semicolon _ _ _ he =>
    exact ((Phrases.whole he).extend [semicolon]).prepend [word]
  | @evaluate semicolon _ _ he => exact (Phrases.whole he).extend [semicolon]
  | @block lbrace rbrace _ _ hss =>
    exact ((Phrases.of_flatten hss).extend [rbrace]).prepend [lbrace]
  | @param ident colon _ _ _ _ _ _ ht he =>
    exact ((Phrases.whole ht).append (.whole he)).prepend [ident, colon]
  | @or mark _ _ _ _ hl _ hr | @and mark _ _ _ _ hl _ hr
  | @comparison mark _ _ _ _ _ _ _ hl _ hr | @sum mark _ _ _ _ _ _ _ hl _ hr
  | @product mark _ _ _ _ _ _ _ hl _ hr =>
    exact (Phrases.whole hl).append ((Phrases.whole hr).prepend [mark])
  | @unary mark _ _ _ _ _ _ he => exact (Phrases.whole he).prepend [mark]
  | @call lparen rparen _ _ _ _ he _ has hrow =>
    have hargs := ((Phrases.of_row has hrow).extend [rparen]).prepend [lparen]
    exact (Phrases.whole he).append hargs
  | @member dot ident _ _ he => exact (Phrases.whole he).extend [dot, ident]
  | @index lbracket rbracket _ _ _ _ he _ hi =>
    have hindex := ((Phrases.whole hi).extend [rbracket]).prepend [lbracket]
    exact (Phrases.whole he).append hindex
  | @instantiate bang lparen rparen _ _ _ _ he _ _ has hrow =>
    have hargs := ((Phrases.of_row has hrow).extend [rparen]).prepend [bang, lparen]
    exact (Phrases.whole he).append hargs
  | @mixin word lparen rparen _ _ _ _ has hrow =>
    exact ((Phrases.of_row has hrow).extend [rparen]).prepend [word, lparen]
  | typeArg h => exact .whole h
  | @qualified _ word lparen rparen _ _ _ _ _ ht =>
    have hinner := (Phrases.whole ht).append (.missing [rparen])
    exact hinner.prepend [word, lparen]
  | @template bang lparen rparen ts _ _ _ _ _ _ has hrow =>
    have hargs := ((Phrases.of_row has hrow).append (.missing [rparen])).prepend [bang, lparen]
    exact hargs.prepend ts
  | @pointer _ star _ _ h => exact (Phrases.whole h).append (.missing [star])
  | @slice _ lbracket rbracket _ _ h =>
    exact (Phrases.whole h).append (.missing [lbracket, rbracket])
  | @array _ lbracket rbracket _ _ _ _ h _ hsize =>
    have hsize := ((Phrases.whole hsize).extend [rbracket]).prepend [lbracket]
    exact (Phrases.whole h).append hsize

/-- What is below the tree of a phrase has phrases inside it. -/
theorem Phrase.child (h : Phrase c tokens n) : ∀ child ∈ n.children, child.HasPhrase tokens :=
  h.children.hasPhrase

/-- Every node of a tree stands where its own phrase begins. -/
theorem Phrase.part_begins {part : Node} (hpart : part.IsPartOf n) (h : Phrase c tokens n) :
    part.BeginsIn tokens := by
  induction hpart generalizing c tokens with
  | self => exact h.begins
  | inside hchild _ ih =>
    obtain ⟨c', us, hus, hphrase⟩ := h.child _ hchild
    exact (ih hphrase).mono hus

/-- An interpolated literal is the value of a token. -/
theorem Phrase.token_of_interpolation {i : Interpolation}
    (h : Phrase c tokens (.interpolation i)) :
    ∃ token ∈ tokens, token.terminal = .interpolatedLit ∧ Interpolation.ofToken token = .ok i := by
  generalize hn : Node.interpolation i = n at h
  -- The tree is the literal itself, so the phrase is its token, in parentheses or behind a mark at
  -- most.
  induction h with
  | interpolation h hi =>
    cases hn
    exact ⟨_, List.mem_cons_self, h, hi⟩
  | nested _ ih | ofConjunction _ ih | ofComparison _ ih | ofSum _ ih | ofTerm _ ih | ofUnary _ ih
  | ofSuffixed _ ih | ofPrimary _ ih | exprArg _ ih | result _ ih => exact ih hn
  | ascription _ _ ih | default _ _ ih =>
    obtain ⟨token, htoken, h⟩ := ih hn
    exact ⟨token, List.mem_cons_of_mem _ htoken, h⟩
  | parentheses _ _ _ ih =>
    obtain ⟨token, htoken, h⟩ := ih hn
    exact ⟨token, List.mem_cons_of_mem _ (List.mem_append_left _ htoken), h⟩
  | _ => cases hn

end Begins

end Splice
