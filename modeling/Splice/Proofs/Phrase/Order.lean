import Splice.Proofs.Lexing.Order
import Splice.Proofs.Parse.Trees
import Splice.Proofs.Phrase.Parsed
import Splice.Proofs.Phrase.Parts

/-!
# The order of the literals of a tree

The interpolated literals of a tree are those of its tokens. They come in the order of their tokens,
but a literal in the default value of a parameter comes before one in its type.

* `Interpolation.Precedes`: one literal is written before another one.
* `Node.Defers`: one literal is in the default value of a parameter, the other one in its type.
* `Phrase.literals_inTurn`: the order of the literals of a phrase.
* `parseProgram_literals`, `parseExpr_literals`, `parseType_literals`: those of a whole text.
-/

namespace Splice

/-- The token is an interpolated literal. -/
def Token.Writes (token : Token) (i : Interpolation) : Prop :=
  token.terminal = .interpolatedLit ∧ Interpolation.ofToken token = .ok i

/-- One literal is written by a token that stands before that of another one. -/
def Interpolation.Precedes (tokens : List Token) (i j : Interpolation) : Prop :=
  ∃ a ∈ tokens, ∃ b ∈ tokens, a.Writes i ∧ b.Writes j ∧ a.Before b

/-- One literal is in the default value of a parameter of a tree, and another one in its type. -/
def Node.Defers (n : Node) (i j : Interpolation) : Prop :=
  ∃ ident t default, (param ident t default).IsPartOf n ∧ i ∈ default.literals ∧ j ∈ t.literals

/-- One literal comes before another one as it is written before it, or as it is in the default
value of a parameter and the other one in the type in front of it. -/
def Node.InTurn (tokens : List Token) (n : Node) (i j : Interpolation) : Prop :=
  i.Precedes tokens j ∨ n.Defers i j ∧ j.Precedes tokens i

section Order

variable {c : Category} {tokens tokens' : List Token} {n child : Node} {ns : List Node}
  {i j : Interpolation}

theorem Interpolation.Precedes.mono (h : i.Precedes tokens j) (hinside : tokens ⊆ tokens') :
    i.Precedes tokens' j := by
  obtain ⟨a, ha, b, hb, hwrites⟩ := h
  exact ⟨a, hinside ha, b, hinside hb, hwrites⟩

theorem Node.Defers.inside (hchild : child ∈ n.children) (h : child.Defers i j) : n.Defers i j := by
  obtain ⟨ident, t, default, hpart, hi, hj⟩ := h
  exact ⟨ident, t, default, .inside hchild hpart, hi, hj⟩

/-- The literals of a phrase are those of its tokens. -/
theorem Phrase.exists_writes (h : Phrase c tokens n) (hi : i ∈ n.literals) :
    ∃ token ∈ tokens, token.Writes i := by
  obtain ⟨_, token, rest, hinside, hphrase, -⟩ :=
    h.part_begins (Node.isPartOf_of_mem_literals hi) i.loc rfl
  obtain ⟨token', htoken', hkind, hvalue⟩ := hphrase.token_of_interpolation
  exact ⟨token', hinside.subset htoken', hkind, hvalue⟩

theorem Phrases.exists_writes (h : Phrases ns tokens) (hi : i ∈ Node.literalsOf ns) :
    ∃ token ∈ tokens, token.Writes i := by
  rw [Node.literalsOf_eq_flatMap] at hi
  obtain ⟨n, hn, hi⟩ := List.mem_flatMap.1 hi
  obtain ⟨c, us, hus, hphrase⟩ := h.hasPhrase n hn
  obtain ⟨token, htoken, hwrites⟩ := hphrase.exists_writes hi
  exact ⟨token, hus.subset htoken, hwrites⟩

/-- The literals of a phrase are written before those of the phrases behind it. -/
theorem Phrases.precedes (h : Phrases (n :: ns) tokens) (hrise : tokens.Pairwise Token.Before) :
    ∀ i ∈ n.literals, ∀ j ∈ Node.literalsOf ns, i.Precedes tokens j := by
  intro i hi j hj
  cases h with
  | @cons _ front ts rest _ _ h later =>
    obtain ⟨a, ha, hwrites⟩ := h.exists_writes hi
    obtain ⟨b, hb, hwrites'⟩ := later.exists_writes hj
    have hcross := (List.pairwise_append.1 (List.pairwise_append.1 hrise).2.1).2.2
    exact ⟨a, by simp [ha], b, by simp [hb], hwrites, hwrites', hcross a ha b hb⟩

/-- The literals of phrases that stand one behind the other. -/
theorem Phrases.literals_inTurn (h : Phrases ns tokens) (hrise : tokens.Pairwise Token.Before)
    (each : ∀ n ∈ ns, ∀ c us, Phrase c us n → us.Pairwise Token.Before →
      n.literals.Pairwise (n.InTurn us)) :
    (Node.literalsOf ns).Pairwise fun i j =>
      i.Precedes tokens j ∨ (∃ n ∈ ns, n.Defers i j) ∧ j.Precedes tokens i := by
  have whole := h
  induction h with
  | nil => exact .nil
  | @cons c front ts rest n ns h later ih =>
    obtain ⟨-, hbehind, -⟩ := List.pairwise_append.1 hrise
    obtain ⟨hfirst, hlater, -⟩ := List.pairwise_append.1 hbehind
    obtain ⟨heach, heachLater⟩ := List.forall_mem_cons.1 each
    refine List.pairwise_append.2 ⟨?_, ?_, fun i hi j hj => .inl (whole.precedes hrise i hi j hj)⟩
    · refine (heach c ts h hfirst).imp fun {i j} hij => ?_
      have hinside : ts ⊆ front ++ (ts ++ rest) := by simp
      rcases hij with hprecedes | ⟨hdefers, hprecedes⟩
      · exact .inl (hprecedes.mono hinside)
      · exact .inr ⟨⟨n, List.mem_cons_self, hdefers⟩, hprecedes.mono hinside⟩
    · refine (ih hlater heachLater later).imp fun {i j} hij => ?_
      have hinside : rest ⊆ front ++ (ts ++ rest) := by simp
      rcases hij with hprecedes | ⟨⟨n', hn', hdefers⟩, hprecedes⟩
      · exact .inl (hprecedes.mono hinside)
      · exact .inr ⟨⟨n', List.mem_cons_of_mem _ hn', hdefers⟩, hprecedes.mono hinside⟩

end Order

/-- The literals of a phrase come in the order of their tokens, except for those of parameters. -/
theorem Phrase.literals_inTurn {c : Category} {tokens : List Token} {n : Node}
    (h : Phrase c tokens n) (hrise : tokens.Pairwise Token.Before) :
    n.literals.Pairwise (n.InTurn tokens) := by
  have hchildren : (Node.literalsOf n.children).Pairwise (n.InTurn tokens) := by
    refine (h.children.literals_inTurn hrise fun child hchild c us hus hrise =>
      hus.literals_inTurn hrise).imp fun {i j} hij => ?_
    rcases hij with hprecedes | ⟨⟨child, hchild, hdefers⟩, hprecedes⟩
    · exact .inl hprecedes
    · exact .inr ⟨hdefers.inside hchild, hprecedes⟩
  by_cases hliteral : ∃ i, n = .interpolation i
  · obtain ⟨i, rfl⟩ := hliteral
    exact List.pairwise_singleton _ _
  by_cases hparam : ∃ ident t default, n = .param ident t default
  · obtain ⟨ident, t, default, rfl⟩ := hparam
    -- The type and the default value change places.
    have hprecedes := h.children.precedes hrise
    simp only [Node.children, Node.literalsOf, List.append_nil] at hchildren hprecedes
    obtain ⟨htype, hdefault, -⟩ := List.pairwise_append.1 hchildren
    refine List.pairwise_append.2 ⟨hdefault, htype, fun i hi j hj => .inr ⟨?_, ?_⟩⟩
    · exact ⟨ident, t, default, .self, hi, hj⟩
    · exact hprecedes j hj i hi
  · rw [Node.literals_eq (fun _ _ _ hn => hparam ⟨_, _, _, hn⟩) fun _ hn => hliteral ⟨_, hn⟩]
    exact hchildren
termination_by sizeOf n
decreasing_by exact Node.sizeOf_lt_of_mem_children hchild

/-! ## Whole texts -/

section Texts

variable {source : Text}

theorem Node.HasNoParam.precedes {n : Node} {tokens : List Token} {i j : Interpolation}
    (hn : n.HasNoParam) (h : n.InTurn tokens i j) : i.Precedes tokens j := by
  rcases h with hprecedes | ⟨⟨ident, t, default, hpart, -⟩, -⟩
  · exact hprecedes
  · exact absurd hpart (hn ident t default)

theorem parseExpr_literals {e : Node} (h : parseExpr source = .ok e) :
    e.literals.Pairwise (Interpolation.Precedes (Lexed.ofText source).tokens) := by
  have hphrase : Phrase .expr _ e := ((@parse_eq_ok_iff_isTree .expr source e).1 h).2
  refine (hphrase.literals_inTurn (Lexed.pairwise_before source)).imp fun hij => ?_
  exact ((hasSort_of_parseExpr h).hasNoParam rfl).precedes hij

theorem parseType_literals {t : Node} (h : parseType source = .ok t) :
    t.literals.Pairwise (Interpolation.Precedes (Lexed.ofText source).tokens) := by
  have hphrase : Phrase (.type false) _ t := ((@parse_eq_ok_iff_isTree .type source t).1 h).2
  refine (hphrase.literals_inTurn (Lexed.pairwise_before source)).imp fun hij => ?_
  exact ((hasSort_of_parseType h).hasNoParam rfl).precedes hij

/-- The literals of a program. -/
theorem parseProgram_literals {p : Program} (h : parseProgram source = .ok p) :
    (Node.literalsOf p).Pairwise fun i j => i.Precedes (Lexed.ofText source).tokens j ∨
      (∃ s ∈ p, s.Defers i j) ∧ j.Precedes (Lexed.ofText source).tokens i := by
  obtain ⟨-, ss, htokens, rfl, hss⟩ := (@parse_eq_ok_iff_isTree .program source p).1 h
  have hphrases := Phrases.of_flatten hss
  rw [← htokens] at hphrases
  exact hphrases.literals_inTurn (Lexed.pairwise_before source) fun _ _ _ _ hphrase hrise =>
    hphrase.literals_inTurn hrise

end Texts

end Splice
