import Splice.Proofs.Phrase.Surface
import Splice.Proofs.Printing.RoundTrip

/-!
# Types that are no expressions

A type is a head with suffixes. Its tokens are an expression too, unless the head is a builtin type
or has a qualifier around it, or one of the suffixes is a star or empty brackets. The expression
that has the tokens of a type is written as the type is.

* `Node.typeHead`, `Node.typeSuffixes`: the head and the suffixes of a type.
* `Node.isTypeOnly`: whether the tokens of a type are no expression.
* `Phrase.type_parts`: a type is its head with its suffixes.
* `Phrase.typeSurface`, `Phrase.isSuffixedText`: the two kinds of types.
-/

namespace Splice

/-! ## Heads and suffixes -/

namespace Node

/-- The head of a type, which its suffixes stand behind. -/
def typeHead : Node → Node
  | .type loc ident isTemplate (inner :: rest) size =>
    match TypeForm.of ident isTemplate with
    | .pointer | .array => inner.typeHead
    | _ => .type loc ident isTemplate (inner :: rest) size
  | n => n

/-- The suffixes of a type from left to right. -/
def typeSuffixes : Node → List TypeSuffix
  | .type _ ident isTemplate (inner :: _) size =>
    match TypeForm.of ident isTemplate with
    | .pointer => inner.typeSuffixes ++ [.pointer]
    | .array => inner.typeSuffixes ++ [if size.isMissing then .slice else .array size]
    | _ => []
  | _ => []

/-- Whether the head of a type is a builtin type, or has a qualifier around it. -/
def isReserved : Node → Bool
  | .type _ ident isTemplate _ _ =>
    match TypeForm.of ident isTemplate with
    | .qualified => true
    | .plain => BuiltinType.all.any fun b => b.word = ident
    | _ => false
  | _ => false

end Node

/-- Whether the suffix is a star or empty brackets. -/
def TypeSuffix.isUnsized : TypeSuffix → Bool
  | .pointer | .slice => true
  | .array _ => false

/-- Whether the type has a head or a suffix that no expression has. -/
def Node.isTypeOnly (t : Node) : Bool :=
  t.typeHead.isReserved || t.typeSuffixes.any TypeSuffix.isUnsized

/-- The heads that types have in the host language. -/
inductive IsTypeHead : Node → Prop
  | builtin (loc : Loc) (b : BuiltinType) : IsTypeHead (.namedType loc b.word)
  | qualified (loc : Loc) (q : Qualifier) (inner : Node) : IsTypeHead (.qualifiedType loc q inner)
  | named (loc : Loc) {ident : Text} (h : IsQualifiedName ident) : IsTypeHead (.namedType loc ident)
  | template (loc : Loc) {ident : Text} (h : IsQualifiedName ident) (args : List Node) :
    IsTypeHead (.templateType loc ident args)

section Suffixes

variable (t size : Node)

@[simp] theorem Node.typeHead_pointerType : t.pointerType.typeHead = t.typeHead := rfl

@[simp] theorem Node.typeSuffixes_pointerType :
    t.pointerType.typeSuffixes = t.typeSuffixes ++ [.pointer] := rfl

@[simp] theorem Node.typeHead_arrayType : (t.arrayType size).typeHead = t.typeHead := rfl

@[simp] theorem Node.typeSuffixes_arrayType : (t.arrayType size).typeSuffixes =
    t.typeSuffixes ++ [if size.isMissing then .slice else .array size] := rfl

end Suffixes

/-- A head has no suffixes. -/
theorem IsTypeHead.typeHead_eq {t : Node} (h : IsTypeHead t) :
    t.typeHead = t ∧ t.typeSuffixes = [] := by
  cases h with
  | builtin | named => exact ⟨rfl, rfl⟩
  | qualified loc q inner => cases q <;> exact ⟨rfl, rfl⟩
  | template loc h args =>
    cases args with
    | nil => exact ⟨rfl, rfl⟩
    | cons =>
      simp [Node.templateType, Node.typeHead, Node.typeSuffixes, typeForm_of_isQualifiedName h]

/-- Of a head only its name tells whether it is a type only. -/
theorem IsTypeHead.isTypeOnly_eq {t : Node} (h : IsTypeHead t) : t.isTypeOnly = t.isReserved := by
  simp [Node.isTypeOnly, h.typeHead_eq]

theorem Node.withSuffixes_concat (t : Node) (xs : List TypeSuffix) (x : TypeSuffix) :
    t.withSuffixes (xs ++ [x]) = (t.withSuffixes xs).withSuffix x :=
  List.foldl_concat ..

/-- A builtin type and a qualifier are reserved words. -/
theorem Node.isReserved_namedType (loc : Loc) (b : BuiltinType) :
    (namedType loc b.word).isReserved = true := by
  cases b <;> rfl

theorem Node.isReserved_qualifiedType (loc : Loc) (q : Qualifier) (inner : Node) :
    (qualifiedType loc q inner).isReserved = true := by
  cases q <;> rfl

theorem IsQualifiedName.isReserved_eq {ident : Text} (h : IsQualifiedName ident)
    (loc : Option Loc) (isTemplate : Bool) (args : List Node) (size : Node) :
    (Node.type loc ident isTemplate args size).isReserved = false := by
  cases isTemplate with
  | true => simp [Node.isReserved, typeForm_of_isQualifiedName h]
  | false =>
    have hany : (BuiltinType.all.any fun b => b.word = ident) = false :=
      List.any_eq_false.2 fun b _ => by simpa [Keyword.word] using h.ne_word (.builtin b)
    simpa [Node.isReserved, typeForm_of_isQualifiedName h] using hany

/-! ## The parts of a type -/

/-- The names among the tokens are names of the host language. -/
def HaveNames (ts : List Token) : Prop := ∀ token ∈ ts, token.terminal = .name → IsName token.text

theorem HaveNames.left {ts us : List Token} (h : HaveNames (ts ++ us)) : HaveNames ts :=
  fun token htoken => h token (List.mem_append_left _ htoken)

theorem haveNames_ofText (source : Text) : HaveNames (Lexed.ofText source).tokens := by
  intro token htoken hname
  obtain ⟨-, rest, -, -, -, hfirst⟩ := Lexed.standsIn_of_mem htoken
  rw [hname] at hfirst
  exact isName_of_first? hfirst

theorem IsQualifiedName.dot {t n : Text} (h : IsQualifiedName t) (hn : IsName n) :
    IsQualifiedName (t ++ ↑ '.' :: n) := by
  obtain ⟨first, names, hfirst, hnames, rfl⟩ := h
  refine ⟨first, names ++ [n], hfirst, ?_, by simp [dotted]⟩
  exact List.forall_mem_append.2 ⟨hnames, List.forall_mem_singleton.2 hn⟩

theorem QualifiedName.isQualifiedName {ts : List Token} {ident : Text} (h : QualifiedName ts ident)
    (hnames : HaveNames ts) : IsQualifiedName ident := by
  induction h with
  | name h => exact ⟨_, [], hnames _ List.mem_cons_self h, nofun, by simp [dotted]⟩
  | dot _ _ htoken ih => exact (ih hnames.left).dot (hnames _ (by simp) htoken)

/-- An expression is some node, and no type by itself. -/
theorem Phrase.isExpr_kind {c : Category} {ts : List Token} {e : Node} (h : Phrase c ts e)
    (hc : c.isExpr = true ∨ c = .templateArg) : e.isMissing = false ∧ e.isType = false := by
  induction h with
  | ofConjunction _ ih | ofComparison _ ih | ofSum _ ih | ofTerm _ ih | ofUnary _ ih
  | ofSuffixed _ ih | ofPrimary _ ih | exprArg _ ih | parentheses _ _ _ ih => exact ih (.inl rfl)
  | or | and | comparison | sum | product | unary | call | member | index | instantiate | name
  | integer | fraction | string | rawString | character | interpolation | isTrue | isFalse | null
  | mixin | typeArg => exact ⟨rfl, rfl⟩
  | _ => simp [Category.isExpr] at hc

/-- A type is its head with its suffixes. -/
theorem Phrase.type_parts {reserved : Bool} {ts : List Token} {t : Node}
    (h : Phrase (.type reserved) ts t) (hnames : HaveNames ts) :
    IsTypeHead t.typeHead ∧ t.typeHead.withSuffixes t.typeSuffixes = t := by
  have head {t : Node} (h : IsTypeHead t) :
      IsTypeHead t.typeHead ∧ t.typeHead.withSuffixes t.typeSuffixes = t := by
    rw [h.typeHead_eq.1, h.typeHead_eq.2]
    exact ⟨h, rfl⟩
  generalize hc : Category.type reserved = c at h
  induction h with
  | builtin => exact head (.builtin ..)
  | qualified => exact head (.qualified ..)
  | named h => exact head (.named _ (h.isQualifiedName hnames))
  | template h => exact head (.template _ (h.isQualifiedName hnames.left) _)
  | pointer _ _ ih =>
    obtain ⟨hhead, hparts⟩ := ih hnames.left hc
    refine ⟨hhead, ?_⟩
    rw [Node.typeHead_pointerType, Node.typeSuffixes_pointerType, Node.withSuffixes_concat, hparts]
    rfl
  | slice _ _ _ ih =>
    obtain ⟨hhead, hparts⟩ := ih hnames.left hc
    refine ⟨hhead, ?_⟩
    rw [Node.typeHead_arrayType, Node.typeSuffixes_arrayType, Node.withSuffixes_concat, hparts]
    rfl
  | array _ _ hsize _ ih =>
    obtain ⟨hhead, hparts⟩ := ih hnames.left hc
    refine ⟨hhead, ?_⟩
    rw [Node.typeHead_arrayType, Node.typeSuffixes_arrayType, Node.withSuffixes_concat, hparts,
      (hsize.isExpr_kind (.inl rfl)).1]
    rfl
  | _ => cases hc

/-! ## What is seen of a type -/

/-- What is seen of a type that is no expression. -/
inductive TypeSurface (ts : List Token) : Prop
  | reserved {token : Token} (hfirst : ts.head? = some token)
    (h : token.terminal.beginsExpr = false)
  | pointer {token : Token} (hlast : ts.getLast? = some token) (h : token.terminal = .mark .star)
  | slice (h : ¬ ts.IsChain Token.Meets)

namespace TypeSurface

variable {ts : List Token} {lbracket rbracket : Token}

/-- Nothing of the kind is seen of an expression. -/
theorem not_exprSurface (h : TypeSurface ts) : ¬ ExprSurface ts := by
  intro hexpr
  cases h with
  | reserved hfirst h =>
    obtain ⟨token, htoken, hbegins⟩ := hexpr.first
    rw [hfirst] at htoken
    cases htoken
    rw [h] at hbegins
    cases hbegins
  | pointer hlast h =>
    obtain ⟨token, htoken, hends⟩ := hexpr.last
    rw [hlast] at htoken
    cases htoken
    rw [h] at hends
    cases hends
  | slice h => exact h hexpr.chain

/-- A star before brackets is no operator. -/
theorem brackets (h : TypeSurface ts) (hlbracket : lbracket.terminal = .mark .lbracket)
    (us : List Token) : TypeSurface (ts ++ lbracket :: us) := by
  cases h with
  | reserved hfirst h =>
    exact .reserved (by rw [List.head?_append, hfirst]; rfl) h
  | pointer hlast h =>
    refine .slice fun hchain => ?_
    have hmeets := (List.isChain_append.1 hchain).2.2 _ hlast _ rfl
    exact hmeets.1 ⟨h, .inr hlbracket⟩
  | slice h => exact .slice fun hchain => h (List.isChain_append.1 hchain).1

/-- Empty brackets. -/
theorem of_slice (hlbracket : lbracket.terminal = .mark .lbracket)
    (hrbracket : rbracket.terminal = .mark .rbracket) (ts : List Token) :
    TypeSurface (ts ++ [lbracket, rbracket]) := by
  refine .slice fun hchain => ?_
  have hmeets := (List.isChain_cons_cons.1 (List.isChain_append.1 hchain).2.1).1
  exact hmeets.2 ⟨hlbracket, hrbracket⟩

end TypeSurface

@[simp] theorem Node.isTypeOnly_array {size : Node} (t : Node) (h : size.isMissing = false) :
    (t.arrayType size).isTypeOnly = t.isTypeOnly := by
  simp [Node.isTypeOnly, h, TypeSuffix.isUnsized]

/-- A star or empty brackets on its surface, or its first word, tell a type from an expression. -/
theorem Phrase.typeSurface {reserved : Bool} {ts : List Token} {t : Node}
    (h : Phrase (.type reserved) ts t) (hnames : HaveNames ts) (honly : t.isTypeOnly = true) :
    TypeSurface (surface 0 ts) := by
  generalize hc : Category.type reserved = c at h
  induction h with
  | builtin h => exact .reserved rfl (by rw [h]; rfl)
  | qualified h =>
    rw [surface_cons (Token.isPlain_of_eq h)]
    exact .reserved rfl (by rw [h]; rfl)
  | named h =>
    have hname := h.isQualifiedName hnames
    rw [(IsTypeHead.named _ hname).isTypeOnly_eq, Node.namedType, hname.isReserved_eq] at honly
    cases honly
  | template h =>
    have hname := h.isQualifiedName hnames.left
    rw [(IsTypeHead.template _ hname _).isTypeOnly_eq, Node.templateType,
      hname.isReserved_eq] at honly
    cases honly
  | pointer h hstar =>
    rw [h.balanced.append, surface_single]
    exact .pointer (List.getLast?_concat ..) hstar
  | slice h hlbracket hrbracket =>
    rw [h.balanced.append, surface_pair _ _ (Token.isPlain_of_eq hlbracket)]
    exact .of_slice hlbracket hrbracket _
  | array h hlbracket hsize _ ih =>
    rw [Node.isTypeOnly_array _ (hsize.isExpr_kind (.inl rfl)).1] at honly
    rw [h.balanced.append, surface_cons (Token.isPlain_of_eq hlbracket)]
    exact (ih hnames.left honly hc).brackets hlbracket _
  | _ => cases hc

/-! ## Types that are expressions -/

/-- The tokens are an expression that is written as the text, and needs no parentheses before a
suffix. -/
def IsSuffixedText (ts : List Token) (text : Text) : Prop :=
  ∃ e, Phrase .suffixed ts e ∧ e.strength = postfixStrength ∧ e.text = text

theorem QualifiedName.isSuffixedText {ts : List Token} {ident : Text} (h : QualifiedName ts ident) :
    IsSuffixedText ts ident := by
  induction h with
  | name h => exact ⟨_, .ofPrimary (.name h), rfl, rfl⟩
  | dot _ hdot htoken ih =>
    obtain ⟨e, he, hstrength, htext⟩ := ih
    exact ⟨_, .member he hdot htoken, rfl, by rw [Node.text, hstrength, htext]; rfl⟩

/-- The tokens of any other type are an expression that is written as the type is. -/
theorem Phrase.isSuffixedText {reserved : Bool} {ts : List Token} {t : Node}
    (h : Phrase (.type reserved) ts t) (hnames : HaveNames ts) (honly : t.isTypeOnly = false) :
    IsSuffixedText ts t.typeText := by
  generalize hc : Category.type reserved = c at h
  induction h with
  | builtin =>
    rw [(IsTypeHead.builtin ..).isTypeOnly_eq, Node.isReserved_namedType] at honly
    cases honly
  | qualified =>
    rw [(IsTypeHead.qualified ..).isTypeOnly_eq, Node.isReserved_qualifiedType] at honly
    cases honly
  | named h =>
    rw [Node.namedType, Node.typeText, typeForm_of_isQualifiedName (h.isQualifiedName hnames)]
    exact h.isSuffixedText
  | template h hbang hlparen has hrow hrparen =>
    obtain ⟨e, he, hstrength, htext⟩ := h.isSuffixedText
    refine ⟨_, .instantiate he hbang hlparen has hrow hrparen, rfl, ?_⟩
    have hargs := Node.typeArgTexts_eq_texts
      (List.forall_mem_map.2 fun a ha => ((has a ha).isExpr_kind (.inr rfl)).2)
    rw [Node.templateType, Node.typeText,
      typeForm_of_isQualifiedName (h.isQualifiedName hnames.left), Node.text, hstrength, htext]
    simp [hargs, enclosed]
  | pointer => simp [Node.isTypeOnly, TypeSuffix.isUnsized] at honly
  | slice => simp [Node.isTypeOnly, TypeSuffix.isUnsized, Node.isMissing, Node.kind] at honly
  | array h hlbracket hsize hrbracket ih =>
    rw [Node.isTypeOnly_array _ (hsize.isExpr_kind (.inl rfl)).1] at honly
    obtain ⟨e, he, hstrength, htext⟩ := ih hnames.left honly hc
    refine ⟨_, .index he hlbracket hsize hrbracket, rfl, ?_⟩
    rw [Node.text, hstrength, htext]
    rfl
  | _ => cases hc

end Splice
