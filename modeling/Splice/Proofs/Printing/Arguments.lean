import Splice.Proofs.Printing.Operators

/-!
# Argument lists and what stands behind an expression

* `Nonterminal.IsList`: a nonterminal of lists is made of items with commas between them.
* `Nonterminal.IsList.reads`: items with commas between them are read as a list.
* `Nonterminal.reads_call`, `Nonterminal.reads_member`, `Nonterminal.reads_index`,
  `Nonterminal.reads_instantiate`, `Nonterminal.reads_mixin`: what is made of an expression with a
  bracket or a point behind it.
-/

namespace Splice

namespace Decoded

variable {e : Node} {es : List Node} {v : Decoded Node} {vs : Decoded (List Node)}

/-- The value is a list of trees that are equal to others up to their places. -/
def GivesAll (v : Decoded (List Node)) (es : List Node) : Prop :=
  ∃ es', v = .ok es' ∧ es'.map Node.bare = es.map Node.bare

theorem GivesAll.nil : GivesAll (.ok []) [] := ⟨[], rfl, rfl⟩

theorem GivesAll.one (h : v.Gives e) : GivesAll (Production.oneItem v) [e] := by
  obtain ⟨e', rfl, he⟩ := h
  exact ⟨[e'], rfl, congrArg ([·]) he⟩

theorem GivesAll.cons (h : v.Gives e) (hs : GivesAll vs es) :
    GivesAll (Production.consItems v vs) (e :: es) := by
  obtain ⟨e', rfl, he⟩ := h
  obtain ⟨es', rfl, hes⟩ := hs
  refine ⟨e' :: es', rfl, ?_⟩
  rw [List.map_cons, he, hes, List.map_cons]

theorem GivesAll.snoc (hs : GivesAll vs es) (h : v.Gives e) :
    GivesAll (Production.snocItems vs v) (es ++ [e]) := by
  obtain ⟨e', rfl, he⟩ := h
  obtain ⟨es', rfl, hes⟩ := hs
  refine ⟨es' ++ [e'], rfl, ?_⟩
  rw [List.map_append, List.map_append, hes, List.map_singleton, he, List.map_singleton]

theorem GivesAll.bind {f : List Node → Decoded Node} (hs : GivesAll vs es)
    (hf : ∀ ns, ns.map Node.bare = es.map Node.bare → (f ns).Gives e) : Gives (vs >>= f) e := by
  obtain ⟨ns, rfl, hns⟩ := hs
  exact hf ns hns

end Decoded

namespace Nonterminal

/-- The value of a nonterminal of argument lists is a list of trees up to their places. -/
def GivesAll : (n : Nonterminal) → Decoded n.Value → List Node → Prop
  | args, v, es | moreArgs, v, es | templateArgs, v, es | moreTemplateArgs, v, es =>
    Decoded.GivesAll v es
  | _, _, _ => False

/-- A text, with another one behind it, is read as a nonterminal, and gives a list of trees up to
their places. -/
def ReadsAll (n : Nonterminal) (es : List Node) (t s : Text) : Prop :=
  n.ReadsWith GivesAll es t s

/-! ## Lists -/

/-- The texts of the items behind the first one, each with its comma. -/
def later (ts : List Text) : Text := ts.flatMap fun t => ',' :: ' ' :: t

theorem commaSeparated_cons (t : Text) (ts : List Text) :
    commaSeparated (t :: ts) = t ++ later ts := by
  induction ts generalizing t with
  | nil => simp [commaSeparated, later]
  | cons t' ts ih =>
    rw [commaSeparated, ih]
    · rfl
    · nofun

/-- How lists of items are put together: the items behind the first one are taken from the left. -/
structure IsList (item list more : Nonterminal) : Prop where
  one {e : Node} {t s : Text} : item.Reads e t s → list.ReadsAll [e] t s
  cons {e : Node} {es : List Node} {t t' s : Text} : item.Reads e t (t' ++ s) →
    more.ReadsAll es t' s → list.ReadsAll (e :: es) (t ++ t') s
  first {e : Node} {t s : Text} : Starts t → item.Reads e t s →
    more.ReadsAll [e] (',' :: ' ' :: t) s
  snoc {e : Node} {es : List Node} {t t' s : Text} : Starts t' →
    more.ReadsAll es t (↑ ',' :: ↑ ' ' :: t' ++ s) → item.Reads e t' s →
      more.ReadsAll (es ++ [e]) (t ++ ↑ ',' :: ↑ ' ' :: t') s

namespace IsList

variable {item list more : Nonterminal} {write : Node → Text} {es : List Node} {t s : Text}

/-- More items go on with a list. -/
theorem reads_later (hlist : IsList item list more) {ns : List Node}
    (hns : ∀ n ∈ ns, Starts (write n) ∧ ∀ s, Ends s → item.Reads n (write n) s)
    (h : ∀ s, Ends s → more.ReadsAll es t s) (hs : Ends s) :
    more.ReadsAll (es ++ ns) (t ++ later (ns.map write)) s := by
  induction ns generalizing es t with
  | nil => simpa [later] using h s hs
  | cons n ns ih =>
    obtain ⟨⟨hstarts, hn⟩, hlater⟩ := List.forall_mem_cons.1 hns
    have hsnoc (s : Text) (hs : Ends s) :
        more.ReadsAll (es ++ [n]) (t ++ ↑ ',' :: ↑ ' ' :: write n) s :=
      hlist.snoc hstarts (h _ (.of_mem (by decide) _)) (hn s hs)
    have := ih hlater hsnoc
    simpa [later] using this

/-- Items with commas between them are read as a list. -/
theorem reads (hlist : IsList item list more) (hne : es ≠ [])
    (hes : ∀ e ∈ es, Starts (write e) ∧ ∀ s, Ends s → item.Reads e (write e) s) (hs : Ends s) :
    list.ReadsAll es (commaSeparated (es.map write)) s := by
  match es with
  | [] => exact absurd rfl hne
  | [e] => exact hlist.one ((hes e (List.mem_singleton_self e)).2 s hs)
  | e :: n :: ns =>
    obtain ⟨⟨-, he⟩, hns⟩ := List.forall_mem_cons.1 hes
    obtain ⟨⟨hstarts, hn⟩, hns⟩ := List.forall_mem_cons.1 hns
    have hmore := hlist.reads_later hns (fun s hs => hlist.first hstarts (hn s hs)) hs
    rw [List.map_cons, commaSeparated_cons]
    exact hlist.cons (he _ (.of_mem (by decide) _)) hmore

end IsList

/-- A comma and a blank in front of an item. -/
theorem reads_comma {item : Nonterminal} {e : Node} {t s : Text} (hstarts : Starts t)
    (h : item.Reads e t s) :
    Splice.Reads [.mark .comma, .nonterminal item] (',' :: ' ' :: t) s fun v =>
      item.Gives v.2.1 e := by
  have hitem := Splice.Reads.blank h (hstarts.append s).isSpace
  have hcomma := reads_mark (m := .comma) rfl (↑ ' ' :: t ++ s)
  exact (Splice.Reads.prepend hitem hcomma).imp fun _ hv => hv.2

theorem isList_args : IsList expr args moreArgs where
  one h := reads_node (Production.mem_arguments (k := 0) rfl) h fun _ _ hv => .one hv
  cons h h' := reads_node (Production.mem_arguments (k := 1) rfl) (Splice.Reads.prepend h' h)
    fun _ _ hv => .cons hv.1 hv.2
  first hstarts h := reads_node (Production.mem_arguments (k := 2) rfl) (reads_comma hstarts h)
    fun _ _ hv => .one hv
  snoc hstarts h h' := reads_node (Production.mem_arguments (k := 3) rfl)
    ((reads_comma hstarts h').prepend h) fun _ _ hv => .snoc hv.1 hv.2

theorem isList_templateArgs : IsList templateArg templateArgs moreTemplateArgs where
  one h := reads_node (Production.mem_arguments (k := 4) rfl) h fun _ _ hv => .one hv
  cons h h' := reads_node (Production.mem_arguments (k := 5) rfl) (Splice.Reads.prepend h' h)
    fun _ _ hv => .cons hv.1 hv.2
  first hstarts h := reads_node (Production.mem_arguments (k := 6) rfl) (reads_comma hstarts h)
    fun _ _ hv => .one hv
  snoc hstarts h h' := reads_node (Production.mem_arguments (k := 7) rfl)
    ((reads_comma hstarts h').prepend h) fun _ _ hv => .snoc hv.1 hv.2

/-! ## Brackets and points behind expressions -/

/-- The text between parentheses: nothing, or a list of items. -/
def ReadsBetween (list : Nonterminal) (es : List Node) (t s : Text) : Prop :=
  es = [] ∧ t = [] ∨ list.ReadsAll es t (')' :: s)

theorem IsList.readsBetween {item list more : Nonterminal} (hlist : IsList item list more)
    {write : Node → Text} {es : List Node}
    (hes : ∀ e ∈ es, Starts (write e) ∧ ∀ s, Ends s → item.Reads e (write e) s) (s : Text) :
    list.ReadsBetween es (commaSeparated (es.map write)) s := by
  by_cases hne : es = []
  · subst hne
    exact .inl ⟨rfl, rfl⟩
  · exact .inr (hlist.reads hne hes (.of_mem (by decide) s))

section Suffixes

variable {e n : Node} {es : List Node} {t t' s : Text} {loc : Loc}

theorem reads_parens (s : Text) :
    Splice.Reads [.mark .lparen, .mark .rparen] ['(', ')'] s fun _ => True :=
  ((reads_mark (m := .rparen) rfl s).prepend (reads_mark (m := .lparen) rfl _)).imp
    fun _ _ => trivial

/-- A list in parentheses. -/
theorem reads_list {list : Nonterminal} (h : list.ReadsAll es t (')' :: s)) :
    Splice.Reads [.mark .lparen, .nonterminal list, .mark .rparen] (↑ '(' :: t ++ ([')'] : Text)) s
      fun v => list.GivesAll v.2.1 es := by
  have hopen := reads_mark (m := .lparen) rfl (t ++ ([')'] : Text) ++ s)
  have hrow := ((reads_mark (m := .rparen) rfl s).prepend h).prepend hopen
  exact hrow.imp fun _ hv => hv.2.1

theorem bare_call : (Node.call loc e es).bare = .call .start e.bare (es.map Node.bare) := by
  rw [Node.bare, Node.mapLoc, Node.mapLocs_eq_map]
  rfl

theorem reads_call (h : suffixed.Reads e t (↑ '(' :: t' ++ ([')'] : Text) ++ s))
    (hargs : args.ReadsBetween es t' s) :
    suffixed.Reads (.call loc e es) (t ++ (↑ '(' :: t' ++ ([')'] : Text))) s := by
  rcases hargs with ⟨rfl, rfl⟩ | hargs
  · refine reads_node (Production.mem_operands (k := 1) rfl) ((reads_parens s).prepend h)
      fun _ _ hv => hv.1.bind fun n hn => Decoded.GivesAll.nil.bind fun ns hns => .pure ?_
    rw [bare_call, bare_call, hn, hns]
  · refine reads_node (Production.mem_operands (k := 2) rfl) ((reads_list hargs).prepend h)
      fun _ _ hv => hv.1.bind fun n hn => Decoded.GivesAll.bind hv.2 fun ns hns => .pure ?_
    rw [bare_call, bare_call, hn, hns]

/-- The mark between a template and its arguments. -/
theorem reads_bang (s : Text) : Splice.Reads [.mark .bang] ['!'] ('(' :: s) fun _ => True := by
  refine .imp (fun _ _ => trivial) (.token (Lexeme.first?_mark (m := .bang) fun _ => ?_))
  rintro _ ⟨⟩
  decide

theorem bare_instantiate :
    (Node.instantiate loc e es).bare = .instantiate .start e.bare (es.map Node.bare) := by
  rw [Node.bare, Node.mapLoc, Node.mapLocs_eq_map]
  rfl

theorem reads_instantiate (h : suffixed.Reads e t (↑ '!' :: ↑ '(' :: t' ++ ([')'] : Text) ++ s))
    (hargs : templateArgs.ReadsBetween es t' s) :
    suffixed.Reads (.instantiate loc e es) (t ++ ↑ '!' :: (↑ '(' :: t' ++ ([')'] : Text))) s := by
  have hbang := reads_bang (t' ++ ([')'] : Text) ++ s)
  rcases hargs with ⟨rfl, rfl⟩ | hargs
  · have hrow := ((reads_parens s).prepend hbang).prepend h
    refine reads_node (Production.mem_operands (k := 5) rfl) hrow
      fun _ _ hv => hv.1.bind fun n hn => Decoded.GivesAll.nil.bind fun ns hns => .pure ?_
    rw [bare_instantiate, bare_instantiate, hn, hns]
  · have hrow := ((reads_list hargs).prepend hbang).prepend h
    refine reads_node (Production.mem_operands (k := 6) rfl) hrow
      fun _ _ hv => hv.1.bind fun n hn => Decoded.GivesAll.bind hv.2.2 fun ns hns => .pure ?_
    rw [bare_instantiate, bare_instantiate, hn, hns]

theorem bare_mixin : (Node.mixin loc es).bare = .mixin .start (es.map Node.bare) := by
  rw [Node.bare, Node.mapLoc, Node.mapLocs_eq_map]
  rfl

theorem reads_mixin (hargs : args.ReadsBetween es t s) :
    suffixed.Reads (.mixin loc es) ("mixin" ++ (↑ '(' :: t ++ ([')'] : Text))) s := by
  have hword : Splice.Reads [.word .mixinWord] "mixin" (↑ '(' :: t ++ ([')'] : Text) ++ s)
      fun _ => True :=
    .imp (fun _ _ => trivial) (.token (Lexeme.first?_keyword .mixinWord (.of_mem (by decide) _)))
  refine Reads.toSuffixed ?_
  rcases hargs with ⟨rfl, rfl⟩ | hargs
  · refine reads_node (Production.mem_operands (k := 17) rfl) ((reads_parens s).prepend hword)
      fun _ _ _ => Decoded.GivesAll.nil.bind fun ns hns => .pure ?_
    rw [bare_mixin, bare_mixin, hns]
  · refine reads_node (Production.mem_operands (k := 18) rfl) ((reads_list hargs).prepend hword)
      fun _ _ hv => Decoded.GivesAll.bind hv.2 fun ns hns => .pure ?_
    rw [bare_mixin, bare_mixin, hns]

theorem reads_member {ident : Text} (h : suffixed.Reads e t (↑ '.' :: ident ++ s))
    (hident : IsName ident) (hs : Ends s) :
    suffixed.Reads (.member loc e ident) (t ++ ↑ '.' :: ident) s := by
  have hname := Splice.Reads.token (Lexeme.first?_name hident hs)
  have hrow := (hname.prepend (reads_mark (m := .dot) rfl (ident ++ s))).prepend h
  refine reads_node (Production.mem_operands (k := 3) rfl) hrow
    fun _ v hv => hv.1.bind fun n hn => .pure ?_
  have htext : v.2.2.1.text = ident := hv.2.2
  simp only [Node.bare, Node.mapLoc, htext] at hn ⊢
  rw [hn]

/-- An expression in brackets. -/
theorem reads_brackets (h : expr.Reads e t (']' :: s)) :
    Splice.Reads [.mark .lbracket, .nonterminal .expr, .mark .rbracket]
      (↑ '[' :: t ++ ([']'] : Text)) s fun v => expr.Gives v.2.1 e := by
  have hopen := reads_mark (m := .lbracket) rfl (t ++ ([']'] : Text) ++ s)
  have hrow := ((reads_mark (m := .rbracket) rfl s).prepend h).prepend hopen
  exact hrow.imp fun _ hv => hv.2.1

theorem reads_index (h : suffixed.Reads e t (↑ '[' :: t' ++ ([']'] : Text) ++ s))
    (hoffset : expr.Reads n t' (']' :: s)) :
    suffixed.Reads (.index loc e n) (t ++ (↑ '[' :: t' ++ ([']'] : Text))) s := by
  refine reads_node (Production.mem_operands (k := 4) rfl) ((reads_brackets hoffset).prepend h)
    fun _ _ hv => hv.1.bind fun _ hn => Decoded.Gives.bind hv.2 fun _ hn' => .pure ?_
  exact congrArg₂ (Node.index .start) hn hn'

end Suffixes

end Nonterminal

end Splice
