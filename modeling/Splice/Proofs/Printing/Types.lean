import Splice.Proofs.Printing.Arguments
import Splice.Proofs.Printing.Constants
import Splice.Proofs.Syntax.Sorts

/-!
# Types

A written type is a base with suffixes behind it. `ReadsType` says that a text is read so, which
stays true when another suffix is put behind the text.

* `reads_qualifiedName`: names with points between them.
* `ReadsType.pointer`, `ReadsType.array`: one more suffix.
* `ReadsType.reads`, `ReadsType.reads_typeArg`: a base with suffixes is read as a type, and as an
  argument if it begins with a reserved word.
-/

namespace Splice

/-! ## Names with points -/

/-- The value of a nonterminal of names is a text. -/
def Nonterminal.GivesName : (n : Nonterminal) → Decoded n.Value → Text → Prop
  | qualifiedName, v, t | moreNames, v, t => v = .ok t
  | _, _, _ => False

namespace Nonterminal

theorem ends_dotted {names : List Text} (h : ∀ n ∈ names, IsName n) {s : Text} (hs : Ends s) :
    Ends (dotted names ++ s) := by
  cases names with
  | nil => exact hs
  | cons n names =>
    have hdot := Ends.dot (h n (List.mem_cons_self ..)) (dotted names ++ s)
    simpa [dotted] using hdot

theorem reads_dotName {n s : Text} (hn : IsName n) (hs : Ends s) :
    Splice.Reads [.mark .dot, .terminal .name] ('.' :: n) s fun v => v.2.1.text = n := by
  have hname := Splice.Reads.token (Lexeme.first?_name hn hs)
  exact (hname.prepend (reads_mark (m := .dot) rfl (n ++ s))).imp fun _ hv => hv.2

/-- More names go on with names behind points. -/
theorem reads_moreNames {names : List Text} (hnames : ∀ n ∈ names, IsName n) {t s : Text}
    (h : ∀ s, Ends s → moreNames.ReadsWith GivesName t t s) (hs : Ends s) :
    moreNames.ReadsWith GivesName (t ++ dotted names) (t ++ dotted names) s := by
  induction names generalizing t with
  | nil => simpa [dotted] using h s hs
  | cons n names ih =>
    obtain ⟨hn, hlater⟩ := List.forall_mem_cons.1 hnames
    have hsnoc (s : Text) (hs : Ends s) :
        moreNames.ReadsWith GivesName (t ++ ↑ '.' :: n) (t ++ ↑ '.' :: n) s := by
      have hrow := (reads_dotName hn hs).prepend (h _ (Ends.dot hn s))
      refine reads_node (Production.mem_types (k := 28) rfl) hrow fun _ v hv => ?_
      obtain ⟨hfirst, rfl⟩ := hv
      exact bind_eq_ok.2 ⟨t, hfirst, rfl⟩
    have := ih hlater hsnoc
    simpa [dotted] using this

/-- Names with points between them. -/
theorem reads_qualifiedName {ident : Text} (h : IsQualifiedName ident) {s : Text} (hs : Ends s) :
    qualifiedName.ReadsWith GivesName ident ident s := by
  obtain ⟨first, names, hfirst, hnames, rfl⟩ := h
  have hhead := Splice.Reads.token (Lexeme.first?_name hfirst (ends_dotted hnames hs))
  cases names with
  | nil =>
    rw [dotted, List.flatMap_nil, List.append_nil]
    exact reads_node (Production.mem_types (k := 25) rfl) hhead fun _ v hv => congrArg Except.ok hv
  | cons n names =>
    obtain ⟨hn, hlater⟩ := List.forall_mem_cons.1 hnames
    have hmore (s : Text) (hs : Ends s) : moreNames.ReadsWith GivesName ('.' :: n) ('.' :: n) s :=
      reads_node (Production.mem_types (k := 27) rfl) (reads_dotName hn hs)
        fun _ v hv => congrArg (fun t => Except.ok (CodePoint.scalar '.' :: t)) hv
    have hrow := Splice.Reads.prepend (reads_moreNames hlater hmore hs) hhead
    refine reads_node (Production.mem_types (k := 26) rfl) hrow fun _ v hv => ?_
    obtain ⟨rfl, hmore⟩ := hv
    exact bind_eq_ok.2 ⟨_, rfl, bind_eq_ok.2 ⟨_, hmore, rfl⟩⟩

end Nonterminal

/-! ## Suffixes -/

/-- The suffix without its places. -/
def TypeSuffix.bare : TypeSuffix → TypeSuffix
  | pointer => pointer
  | slice => slice
  | array size => array size.bare

theorem Node.bare_withSuffix (base : Node) (x : TypeSuffix) :
    (base.withSuffix x).bare = base.bare.withSuffix x.bare := by
  have hloc : base.bare.loc? = base.loc?.map fun _ => .start := base.loc?_mapLoc _
  cases x <;>
    simp only [withSuffix, TypeSuffix.bare, pointerType, arrayType, hloc] <;>
    rfl

theorem Node.bare_withSuffixes (base : Node) (xs : List TypeSuffix) :
    (base.withSuffixes xs).bare = base.bare.withSuffixes (xs.map TypeSuffix.bare) := by
  unfold withSuffixes
  induction xs generalizing base with
  | nil => rfl
  | cons x xs ih => rw [List.foldl_cons, ih, bare_withSuffix, List.map_cons, List.foldl_cons]

namespace Nonterminal

/-- The value of a nonterminal of suffixes is a list of suffixes up to their places. -/
def GivesSuffixes : (n : Nonterminal) → Decoded n.Value → List TypeSuffix → Prop
  | typeSuffix, v, xs => ∃ x, v = .ok x ∧ [x.bare] = xs.map TypeSuffix.bare
  | typeSuffixes, v, xs => ∃ xs', v = .ok xs' ∧ xs'.map TypeSuffix.bare = xs.map TypeSuffix.bare
  | _, _, _ => False

/-- A text is read as suffixes, of which there may be none. -/
def ReadsSuffixes (xs : List TypeSuffix) (t s : Text) : Prop :=
  xs = [] ∧ t = [] ∨ typeSuffixes.ReadsWith GivesSuffixes xs t s

section Suffixes

variable {xs : List TypeSuffix} {x : TypeSuffix} {t t' s : Text}

/-- One more suffix. -/
theorem ReadsSuffixes.snoc (h : ReadsSuffixes xs t (t' ++ s))
    (hlast : typeSuffix.ReadsWith GivesSuffixes [x] t' s) :
    ReadsSuffixes (xs ++ [x]) (t ++ t') s := by
  refine .inr ?_
  rcases h with ⟨rfl, rfl⟩ | h
  · refine reads_node (Production.mem_types (k := 29) rfl) hlast fun _ _ hv => ?_
    obtain ⟨x', hx, hbare⟩ := hv
    exact ⟨[x'], bind_eq_ok.2 ⟨x', hx, rfl⟩, hbare⟩
  · refine reads_node (Production.mem_types (k := 30) rfl) (Splice.Reads.prepend hlast h)
      fun _ _ hv => ?_
    obtain ⟨⟨(xs' : List TypeSuffix), hxs, hbares⟩, (x' : TypeSuffix), hx, hbare⟩ := hv
    refine ⟨xs' ++ [x'], bind_eq_ok.2 ⟨xs', hxs, bind_eq_ok.2 ⟨x', hx, rfl⟩⟩, ?_⟩
    rw [List.map_append, List.map_append, hbares, ← hbare]
    rfl

theorem reads_star (s : Text) : typeSuffix.ReadsWith GivesSuffixes [.pointer] ['*'] s :=
  reads_node (Production.mem_types (k := 31) rfl) (reads_mark (m := .star) rfl s)
    fun _ _ _ => ⟨.pointer, rfl, rfl⟩

theorem reads_slice (s : Text) : typeSuffix.ReadsWith GivesSuffixes [.slice] ['[', ']'] s := by
  have hrow := (reads_mark (m := .rbracket) rfl s).prepend (reads_mark (m := .lbracket) rfl _)
  exact reads_node (Production.mem_types (k := 32) rfl) hrow fun _ _ _ => ⟨.slice, rfl, rfl⟩

theorem reads_size {size : Node} (h : expr.Reads size t (']' :: s)) :
    typeSuffix.ReadsWith GivesSuffixes [.array size] (↑ '[' :: t ++ ([']'] : Text)) s := by
  refine reads_node (Production.mem_types (k := 33) rfl) (reads_brackets h) fun _ _ hv => ?_
  obtain ⟨e, he, hbare⟩ := hv
  refine ⟨.array e, bind_eq_ok.2 ⟨e, he, rfl⟩, ?_⟩
  rw [TypeSuffix.bare, hbare]
  rfl

end Suffixes

end Nonterminal

/-! ## Bases -/

namespace Nonterminal

/-- A text is read as the base of a type. A type among arguments has a base that begins with a
reserved word. -/
def ReadsBase : (reserved : Bool) → Node → Text → Text → Prop
  | false, base, t, s => typeBase.Reads base t s
  | true, base, t, s => builtinType.Reads base t s ∨ qualifiedType.Reads base t s

theorem ReadsBase.any {base : Node} {t s : Text} (h : ReadsBase true base t s) :
    ReadsBase false base t s := by
  rcases h with h | h
  · exact reads_node (Production.mem_types (k := 6) rfl) h fun _ _ hv => hv
  · exact reads_node (Production.mem_types (k := 7) rfl) h fun _ _ hv => hv

section Bases

variable {s : Text} {loc : Option Loc}

theorem reads_builtin (b : BuiltinType) {loc : Loc} (hs : Ends s) :
    builtinType.Reads (.namedType loc b.word) b.word s := by
  refine reads_node (Production.mem_builtins b) (.token (Lexeme.first?_keyword (.builtin b) hs))
    fun _ _ _ => .pure rfl

theorem reads_qualified (q : Qualifier) {loc : Loc} {inner : Node} {t : Text}
    (h : type.Reads inner t (')' :: s)) :
    qualifiedType.Reads (.qualifiedType loc q inner)
      (q.word ++ (↑ '(' :: t ++ ([')'] : Text))) s := by
  have hword := Splice.Reads.token
    (Lexeme.first?_keyword (.qualifier q)
      (.of_mem (c := '(') (by decide) (t ++ ([')'] : Text) ++ s)))
  have hopen := reads_mark (m := .lparen) rfl (t ++ ([')'] : Text) ++ s)
  have hrow := (((reads_mark (m := .rparen) rfl s).prepend h).prepend hopen).prepend hword
  refine reads_node (Production.mem_qualifiers q) hrow
    fun _ _ hv => Decoded.Gives.bind hv.2.2.1 fun n hn => .pure ?_
  simp only [Node.qualifiedType, Node.bare, Node.mapLoc, Node.mapLocs] at hn ⊢
  rw [hn]
  rfl

theorem reads_named {ident : Text} {loc : Loc} (h : IsQualifiedName ident) (hs : Ends s) :
    typeBase.Reads (.namedType loc ident) ident s :=
  reads_node (Production.mem_types (k := 8) rfl) (reads_qualifiedName h hs)
    fun _ _ hv => ⟨_, bind_eq_ok.2 ⟨ident, hv, rfl⟩, rfl⟩

theorem bare_templateType {ident : Text} {loc : Loc} {es : List Node} :
    (Node.templateType loc ident es).bare = .templateType .start ident (es.map Node.bare) := by
  rw [Node.templateType, Node.bare, Node.mapLoc, Node.mapLocs_eq_map]
  rfl

theorem reads_template {ident : Text} {loc : Loc} {es : List Node} {t : Text}
    (h : IsQualifiedName ident) (hargs : templateArgs.ReadsBetween es t s) :
    typeBase.Reads (.templateType loc ident es)
      (ident ++ ↑ '!' :: (↑ '(' :: t ++ ([')'] : Text))) s := by
  have hname := reads_qualifiedName h
    (.of_mem (c := '!') (by decide) (↑ '(' :: t ++ ([')'] : Text) ++ s))
  have hbang := reads_bang (t ++ ([')'] : Text) ++ s)
  rcases hargs with ⟨rfl, rfl⟩ | hargs
  · have hrow := ((reads_parens s).prepend hbang).prepend hname
    refine reads_node (Production.mem_types (k := 9) rfl) hrow fun _ _ hv => ?_
    exact ⟨_, bind_eq_ok.2 ⟨ident, hv.1, rfl⟩, rfl⟩
  · have hrow := ((reads_list hargs).prepend hbang).prepend hname
    refine reads_node (Production.mem_types (k := 10) rfl) hrow fun _ _ hv => ?_
    obtain ⟨es', hes, hbares⟩ := hv.2.2
    refine ⟨_, bind_eq_ok.2 ⟨ident, hv.1, bind_eq_ok.2 ⟨es', hes, rfl⟩⟩, ?_⟩
    exact bare_templateType.trans ((congrArg _ hbares).trans bare_templateType.symm)

end Bases

end Nonterminal

/-! ## A base with suffixes -/

/-- A text is read as a type that is a base with suffixes. -/
structure ReadsType (reserved : Bool) (t base : Node) (xs : List TypeSuffix) (w w' : Text) :
    Prop where
  loc : ∃ loc, t.loc? = some loc
  bare : t.bare = (base.withSuffixes xs).bare
  starts : Starts w
  base : ∀ s, Ends s → Nonterminal.ReadsBase reserved base w s
  ends : ∀ s, Ends s → Ends (w' ++ s)
  suffixes : ∀ s, Ends s → Nonterminal.ReadsSuffixes xs w' s

/-- A text is read as a type. -/
def IsTypeText (reserved : Bool) (t : Node) (text : Text) : Prop :=
  ∃ base xs w w', text = w ++ w' ∧ ReadsType reserved t base xs w w'

namespace Decoded

variable {v : Decoded Node} {ws : Decoded (List TypeSuffix)} {base t : Node}

theorem Gives.trans (hv : v.Gives base) (h : t.bare = base.bare) : v.Gives t := by
  obtain ⟨n, hn, hbare⟩ := hv
  exact ⟨n, hn, hbare.trans h.symm⟩

theorem Gives.suffixedType {xs : List TypeSuffix} (hv : v.Gives base)
    (hws : Nonterminal.typeSuffixes.GivesSuffixes ws xs)
    (h : t.bare = (base.withSuffixes xs).bare) :
    Gives (Production.suffixedType v ws) t := by
  obtain ⟨(xs' : List TypeSuffix), hxs, hbares⟩ := hws
  refine hv.bind fun n hn => ⟨_, bind_eq_ok.2 ⟨xs', hxs, rfl⟩, ?_⟩
  rw [h, Node.bare_withSuffixes, Node.bare_withSuffixes, hn, hbares]

theorem Gives.typeArg {start loc : Loc} (hv : v.Gives t) :
    Gives (Production.typeArgNode start v) (.typeArg loc t) :=
  hv.bind fun _ hn => .pure (congrArg (Node.typeArg .start) hn)

end Decoded

namespace IsTypeText

variable {reserved : Bool} {t : Node} {text : Text}

theorem starts (h : IsTypeText reserved t text) : Starts text := by
  obtain ⟨base, xs, w, w', rfl, h⟩ := h
  exact h.starts.append w'

theorem any (h : IsTypeText true t text) : IsTypeText false t text := by
  obtain ⟨base, xs, w, w', rfl, h⟩ := h
  exact ⟨base, xs, w, w', rfl, { h with base := fun s hs => (h.base s hs).any }⟩

theorem of_base {loc : Loc} (hloc : t.loc? = some loc) (hstarts : Starts text)
    (h : ∀ s, Ends s → Nonterminal.ReadsBase reserved t text s) : IsTypeText reserved t text :=
  ⟨t, [], text, [], (List.append_nil _).symm, ⟨⟨loc, hloc⟩, rfl, hstarts, h, fun _ hs => hs,
    fun _ _ => .inl ⟨rfl, rfl⟩⟩⟩

/-- One more suffix. -/
theorem snoc (h : IsTypeText reserved t text) {x : TypeSuffix} {last : Text} {n : Node} {loc : Loc}
    (hloc : n.loc? = some loc) (hbare : n.bare = (t.withSuffix x).bare)
    (hends : ∀ s, Ends (last ++ s))
    (hlast : ∀ s, Ends s → Nonterminal.typeSuffix.ReadsWith Nonterminal.GivesSuffixes [x] last s) :
    IsTypeText reserved n (text ++ last) := by
  obtain ⟨base, xs, w, w', rfl, h⟩ := h
  refine ⟨base, xs ++ [x], w, w' ++ last, List.append_assoc .., ⟨loc, hloc⟩, ?_, h.starts, h.base,
    fun s _ => ?_, fun s hs => (h.suffixes _ (hends s)).snoc (hlast s hs)⟩
  · rw [hbare, Node.bare_withSuffix, h.bare, ← Node.bare_withSuffix]
    simp [Node.withSuffixes]
  · rw [List.append_assoc]
    exact h.ends _ (hends s)

/-- A type is read as a base, behind which there may be suffixes. -/
theorem reads (h : IsTypeText false t text) {s : Text} (hs : Ends s) :
    Nonterminal.type.Reads t text s := by
  obtain ⟨base, xs, w, w', rfl, h⟩ := h
  have hbase := h.base _ (h.ends s hs)
  rcases h.suffixes s hs with ⟨rfl, rfl⟩ | hsuffixes
  · rw [List.nil_append] at hbase
    rw [List.append_nil]
    refine Nonterminal.reads_node (Production.mem_types (k := 4) rfl) hbase fun _ _ hv => ?_
    exact Decoded.Gives.trans hv h.bare
  · refine Nonterminal.reads_node (Production.mem_types (k := 5) rfl)
      (Reads.prepend hsuffixes hbase) fun _ _ hv => ?_
    exact Decoded.Gives.suffixedType hv.1 hv.2 h.bare

/-- A type among arguments is read by a production for each form of its base. -/
theorem reads_typeArg (h : IsTypeText true t text) {loc : Loc} {s : Text} (hs : Ends s) :
    Nonterminal.templateArg.Reads (.typeArg loc t) text s := by
  obtain ⟨base, xs, w, w', rfl, h⟩ := h
  have honly : Nonterminal.typeOnly.Reads (.typeArg loc t) (w ++ w') s := by
    have hbase := h.base _ (h.ends s hs)
    rcases h.suffixes s hs with ⟨rfl, rfl⟩ | hsuffixes
    · rw [List.nil_append] at hbase
      rw [List.append_nil]
      rcases hbase with hbase | hbase
      · refine Nonterminal.reads_node (Production.mem_types (k := 0) rfl) hbase fun _ _ hv => ?_
        exact (Decoded.Gives.trans hv h.bare).typeArg
      · refine Nonterminal.reads_node (Production.mem_types (k := 2) rfl) hbase fun _ _ hv => ?_
        exact (Decoded.Gives.trans hv h.bare).typeArg
    · rcases hbase with hbase | hbase
      · refine Nonterminal.reads_node (Production.mem_types (k := 1) rfl)
          (Reads.prepend hsuffixes hbase) fun _ _ hv => ?_
        exact (Decoded.Gives.suffixedType hv.1 hv.2 h.bare).typeArg
      · refine Nonterminal.reads_node (Production.mem_types (k := 3) rfl)
          (Reads.prepend hsuffixes hbase) fun _ _ hv => ?_
        exact (Decoded.Gives.suffixedType hv.1 hv.2 h.bare).typeArg
  exact Nonterminal.reads_node (Production.mem_arguments (k := 9) rfl) honly fun _ _ hv => hv

end IsTypeText

end Splice
