import Splice.Proofs.Grammar.Derivation
import Splice.Proofs.Syntax.Sorts

/-!
# The trees that derivations build

Every node that a production builds belongs where the grammar puts it, if the nodes below do. Hence
the value of a derivation is a tree of the sort of its goal, and its interpolated literals have any
property that those of the tokens have.

* `Nonterminal.Holds`: what the value of a nonterminal is like.
* `Production.preserves_of_mem`: a production builds such a value out of such values.
* `Derives.holds`: the values of a derivation are such values.
-/

namespace Splice

/-- A token that was cut from a text, whose value has a property if it is an interpolated
literal. -/
structure Token.Fits (Q : Interpolation → Prop) (token : Token) : Prop where
  lexeme : ∃ s, Lexeme.first? (token.text ++ s) = some (.token token.terminal, token.text.length)
  literal : token.terminal = .interpolatedLit → ∀ i, Interpolation.ofToken token = .ok i → Q i

/-- All nodes of a list belong to a place. -/
def AllHaveSort (Q : Interpolation → Prop) (sort : NodeSort) (ns : List Node) : Prop :=
  ∀ n ∈ ns, HasSort Q sort n

/-- A node is a block of statements. -/
def IsBlock (Q : Interpolation → Prop) (n : Node) : Prop :=
  ∃ loc body, n = .block loc body ∧ AllHaveSort Q .statement body

/-- A text consists of names with a point in front of each. -/
def IsDotted (t : Text) : Prop := ∃ names, (∀ n ∈ names, IsName n) ∧ t = dotted names

/-- The size of an array, if it has one, is an expression. -/
def TypeSuffix.HasSizes (Q : Interpolation → Prop) : TypeSuffix → Prop
  | .array size => HasSort Q .expr size
  | .pointer | .slice => True

/-- What the value of a nonterminal is like. -/
def Nonterminal.Holds (Q : Interpolation → Prop) : (n : Nonterminal) → n.Value → Prop
  | .whole .program | .program | .statements => AllHaveSort Q .statement
  | .statement | .declaration | .function | .giveBack | .evaluation => HasSort Q .statement
  | .block => IsBlock Q
  | .params | .moreParams => AllHaveSort Q .param
  | .param => HasSort Q .param
  | .whole .expr | .expr | .disjunction | .conjunction | .comparison | .sum | .term | .unary
  | .suffixed | .primary => HasSort Q .expr
  | .args | .moreArgs => AllHaveSort Q .expr
  | .templateArgs | .moreTemplateArgs => AllHaveSort Q .templateArg
  | .templateArg | .typeOnly => HasSort Q .templateArg
  | .whole .type | .type | .typeBase => HasSort Q (.type false)
  | .builtinType | .qualifiedType => HasSort Q (.type true)
  | .qualifiedName => IsQualifiedName
  | .moreNames => IsDotted
  | .typeSuffix => TypeSuffix.HasSizes Q
  | .typeSuffixes => fun suffixes : List TypeSuffix => ∀ s ∈ suffixes, s.HasSizes Q

/-- What the values of a row of symbols are like, as far as they are decoded. -/
def Symbol.Values.Hold (Q : Interpolation → Prop) : (rhs : List Symbol) → Symbol.Values rhs → Prop
  | [], _ => True
  | .terminal t :: rest, (token, later) =>
    token.terminal = t ∧ token.Fits Q ∧ Symbol.Values.Hold Q rest later
  | .nonterminal n :: rest, (value, later) =>
    (∀ v, value = .ok v → n.Holds Q v) ∧ Symbol.Values.Hold Q rest later

theorem Token.Fits.isName {Q : Interpolation → Prop} {token : Token} (h : token.Fits Q)
    (hname : token.terminal = .name) : IsName token.text := by
  obtain ⟨s, hs⟩ := h.lexeme
  rw [hname] at hs
  exact isName_of_first? hs

/-! ## Productions -/

namespace Production

/-- A production builds a value that belongs where it stands out of such values. -/
def Preserves (Q : Interpolation → Prop) (p : Production) : Prop :=
  ∀ start inner v, Symbol.Values.Hold Q p.rhs inner → p.build start inner = .ok v → p.lhs.Holds Q v

variable {Q : Interpolation → Prop} {sort : NodeSort}

theorem oneItem_holds {x : Decoded Node} {ns : List Node} (hx : ∀ n, x = .ok n → HasSort Q sort n)
    (h : oneItem x = .ok ns) : AllHaveSort Q sort ns := by
  obtain ⟨n, hn, h⟩ := bind_eq_ok.1 h
  cases h
  exact List.forall_mem_singleton.2 (hx n hn)

theorem consItems_holds {x : Decoded Node} {xs : Decoded (List Node)} {ns : List Node}
    (hx : ∀ n, x = .ok n → HasSort Q sort n) (hxs : ∀ ns, xs = .ok ns → AllHaveSort Q sort ns)
    (h : consItems x xs = .ok ns) : AllHaveSort Q sort ns := by
  obtain ⟨n, hn, h⟩ := bind_eq_ok.1 h
  obtain ⟨later, hlater, h⟩ := bind_eq_ok.1 h
  cases h
  exact List.forall_mem_cons.2 ⟨hx n hn, hxs later hlater⟩

theorem snocItems_holds {x : Decoded Node} {xs : Decoded (List Node)} {ns : List Node}
    (hxs : ∀ ns, xs = .ok ns → AllHaveSort Q sort ns) (hx : ∀ n, x = .ok n → HasSort Q sort n)
    (h : snocItems xs x = .ok ns) : AllHaveSort Q sort ns := by
  obtain ⟨before, hbefore, h⟩ := bind_eq_ok.1 h
  obtain ⟨n, hn, h⟩ := bind_eq_ok.1 h
  cases h
  exact List.forall_mem_append.2 ⟨hxs before hbefore, List.forall_mem_singleton.2 (hx n hn)⟩

theorem wholes_preserve : ∀ p ∈ wholes, p.Preserves Q := by
  simp only [wholes, List.forall_mem_cons]
  refine ⟨?_, ?_, ?_, nofun⟩
  all_goals
    rintro start ⟨value, _, ⟨⟩⟩ v ⟨hvalue, -⟩ h
    exact hvalue v h

theorem statements_preserve : ∀ p ∈ statements, p.Preserves Q := by
  simp only [statements, List.forall_mem_cons]
  refine ⟨?_, ?_, ?_, ?_, ?_, ?_, ?_, ?_, ?_, ?_, ?_, ?_, ?_, ?_, ?_, ?_, nofun⟩
  · rintro start ⟨⟩ v - h
    cases h
    exact nofun
  · rintro start ⟨value, ⟨⟩⟩ v ⟨hvalue, -⟩ h
    exact hvalue v h
  · rintro start ⟨s, ⟨⟩⟩ v ⟨hs, -⟩ h
    exact oneItem_holds hs h
  · rintro start ⟨body, s, ⟨⟩⟩ v ⟨hbody, hs, -⟩ h
    exact snocItems_holds hbody hs h
  · rintro start ⟨value, ⟨⟩⟩ v ⟨hvalue, -⟩ h
    exact hvalue v h
  · rintro start ⟨value, ⟨⟩⟩ v ⟨hvalue, -⟩ h
    exact hvalue v h
  · rintro start ⟨value, ⟨⟩⟩ v ⟨hvalue, -⟩ h
    exact hvalue v h
  · rintro start ⟨value, ⟨⟩⟩ v ⟨hvalue, -⟩ h
    exact hvalue v h
  · rintro start ⟨value, ⟨⟩⟩ v ⟨hvalue, -⟩ h
    obtain ⟨loc, body, rfl, hbody⟩ := hvalue v h
    exact .block hbody
  · rintro start ⟨_, ident, _, value, _, ⟨⟩⟩ v ⟨-, -, -, -, -, -, hvalue, -⟩ h
    obtain ⟨e, he, h⟩ := bind_eq_ok.1 h
    cases h
    exact .declare (.missing _) (hvalue e he)
  · rintro start ⟨_, ident, _, type, _, value, _, ⟨⟩⟩ v ⟨-, -, -, -, -, -, htype, -, -, hvalue, -⟩ h
    obtain ⟨t, ht, h⟩ := bind_eq_ok.1 h
    obtain ⟨e, he, h⟩ := bind_eq_ok.1 h
    cases h
    exact .declare (.present (htype t ht)) (hvalue e he)
  · rintro start ⟨_, _, ⟨⟩⟩ v - h
    cases h
    exact .giveBack (.missing _)
  · rintro start ⟨_, value, _, ⟨⟩⟩ v ⟨-, -, hvalue, -⟩ h
    obtain ⟨e, he, h⟩ := bind_eq_ok.1 h
    cases h
    exact .giveBack (.present (hvalue e he))
  · rintro start ⟨value, _, ⟨⟩⟩ v ⟨hvalue, -⟩ h
    obtain ⟨e, he, h⟩ := bind_eq_ok.1 h
    cases h
    exact .evaluate (hvalue e he)
  · rintro start ⟨_, _, ⟨⟩⟩ v - h
    cases h
    exact ⟨start, [], rfl, nofun⟩
  · rintro start ⟨_, body, _, ⟨⟩⟩ v ⟨-, -, hbody, -⟩ h
    obtain ⟨ss, hss, h⟩ := bind_eq_ok.1 h
    cases h
    exact ⟨start, ss, rfl, hbody ss hss⟩

theorem functionNode_holds {loc : Loc} {ident : Token} {params : Decoded (List Node)}
    {result block : Decoded Node} {n : Node}
    (hparams : ∀ ps, params = .ok ps → AllHaveSort Q .param ps)
    (hresult : ∀ t, result = .ok t → HasSort Q (.optional (.type false)) t)
    (hblock : ∀ b, block = .ok b → IsBlock Q b)
    (h : functionNode loc ident params result block = .ok n) : HasSort Q .statement n := by
  obtain ⟨ps, hps, h⟩ := bind_eq_ok.1 h
  obtain ⟨t, ht, h⟩ := bind_eq_ok.1 h
  obtain ⟨b, hb, h⟩ := bind_eq_ok.1 h
  cases h
  obtain ⟨bodyLoc, body, rfl, hbody⟩ := hblock b hb
  exact .function (hparams ps hps) (hresult t ht) hbody

theorem functions_preserve : ∀ p ∈ functions, p.Preserves Q := by
  simp only [functions, List.forall_mem_cons]
  refine ⟨?_, ?_, ?_, ?_, ?_, ?_, ?_, ?_, ?_, ?_, nofun⟩
  · rintro start ⟨_, ident, _, _, block, ⟨⟩⟩ v ⟨-, -, -, -, -, -, -, -, hblock, -⟩ h
    refine functionNode_holds ?_ ?_ hblock h
    · rintro ps ⟨⟩
      exact nofun
    · rintro t ⟨⟩
      exact .missing _
  · rintro start ⟨_, ident, _, _, _, result, block, ⟨⟩⟩ v
      ⟨-, -, -, -, -, -, -, -, -, -, hresult, hblock, -⟩ h
    refine functionNode_holds ?_ (fun t ht => .present (hresult t ht)) hblock h
    rintro ps ⟨⟩
    exact nofun
  · rintro start ⟨_, ident, _, params, _, block, ⟨⟩⟩ v
      ⟨-, -, -, -, -, -, hparams, -, -, hblock, -⟩ h
    refine functionNode_holds hparams ?_ hblock h
    rintro t ⟨⟩
    exact .missing _
  · rintro start ⟨_, ident, _, params, _, _, result, block, ⟨⟩⟩ v
      ⟨-, -, -, -, -, -, hparams, -, -, -, -, hresult, hblock, -⟩ h
    exact functionNode_holds hparams (fun t ht => .present (hresult t ht)) hblock h
  · rintro start ⟨p, ⟨⟩⟩ v ⟨hp, -⟩ h
    exact oneItem_holds hp h
  · rintro start ⟨p, ps, ⟨⟩⟩ v ⟨hp, hps, -⟩ h
    exact consItems_holds hp hps h
  · rintro start ⟨_, p, ⟨⟩⟩ v ⟨-, -, hp, -⟩ h
    exact oneItem_holds hp h
  · rintro start ⟨ps, _, p, ⟨⟩⟩ v ⟨hps, -, -, hp, -⟩ h
    exact snocItems_holds hps hp h
  · rintro start ⟨ident, _, type, ⟨⟩⟩ v ⟨-, -, -, -, htype, -⟩ h
    obtain ⟨t, ht, h⟩ := bind_eq_ok.1 h
    cases h
    exact .param (htype t ht) (.missing _)
  · rintro start ⟨ident, _, type, _, value, ⟨⟩⟩ v ⟨-, -, -, -, htype, -, -, hvalue, -⟩ h
    obtain ⟨e, he, h⟩ := bind_eq_ok.1 h
    obtain ⟨t, ht, h⟩ := bind_eq_ok.1 h
    cases h
    exact .param (htype t ht) (.present (hvalue e he))

theorem binary_holds {loc : Loc} {mark : Mark} {op : BinaryOp} {left right : Decoded Node}
    {n : Node} (hop : (mark, op) ∈ BinaryOp.marks) (hleft : ∀ e, left = .ok e → HasSort Q .expr e)
    (hright : ∀ e, right = .ok e → HasSort Q .expr e) (h : binary loc op left right = .ok n) :
    HasSort Q .expr n := by
  obtain ⟨l, hl, h⟩ := bind_eq_ok.1 h
  obtain ⟨r, hr, h⟩ := bind_eq_ok.1 h
  cases h
  exact .binary hop (hleft l hl) (hright r hr)

theorem operators_preserve : ∀ p ∈ operators, p.Preserves Q := by
  simp only [operators, List.forall_mem_append, List.forall_mem_cons, List.forall_mem_map]
  refine ⟨⟨⟨⟨⟨⟨⟨⟨?_, ?_, ?_, ?_, ?_, ?_, nofun⟩, ?_⟩, ?_, nofun⟩, ?_⟩,
    ?_, nofun⟩, ?_⟩, ?_, nofun⟩, ?_⟩
  · rintro start ⟨value, ⟨⟩⟩ v ⟨hvalue, -⟩ h
    exact hvalue v h
  · rintro start ⟨value, ⟨⟩⟩ v ⟨hvalue, -⟩ h
    exact hvalue v h
  · rintro start ⟨l, _, r, ⟨⟩⟩ v ⟨hl, -, -, hr, -⟩ h
    -- The two logical operators are in no table but that of all marks.
    exact binary_holds (show (Mark.orOr, _) ∈ _ by decide) hl hr h
  · rintro start ⟨value, ⟨⟩⟩ v ⟨hvalue, -⟩ h
    exact hvalue v h
  · rintro start ⟨l, _, r, ⟨⟩⟩ v ⟨hl, -, -, hr, -⟩ h
    exact binary_holds (show (Mark.andAnd, _) ∈ _ by decide) hl hr h
  · rintro start ⟨value, ⟨⟩⟩ v ⟨hvalue, -⟩ h
    exact hvalue v h
  · rintro ⟨mark, op⟩ hop start ⟨l, _, r, ⟨⟩⟩ v ⟨hl, -, -, hr, -⟩ h
    exact binary_holds (show (mark, op) ∈ _ by simp [BinaryOp.marks, hop]) hl hr h
  · rintro start ⟨value, ⟨⟩⟩ v ⟨hvalue, -⟩ h
    exact hvalue v h
  · rintro ⟨mark, op⟩ hop start ⟨l, _, r, ⟨⟩⟩ v ⟨hl, -, -, hr, -⟩ h
    exact binary_holds (show (mark, op) ∈ _ by simp [BinaryOp.marks, hop]) hl hr h
  · rintro start ⟨value, ⟨⟩⟩ v ⟨hvalue, -⟩ h
    exact hvalue v h
  · rintro ⟨mark, op⟩ hop start ⟨l, _, r, ⟨⟩⟩ v ⟨hl, -, -, hr, -⟩ h
    exact binary_holds (show (mark, op) ∈ _ by simp [BinaryOp.marks, hop]) hl hr h
  · rintro start ⟨value, ⟨⟩⟩ v ⟨hvalue, -⟩ h
    exact hvalue v h
  · rintro ⟨mark, op⟩ hop start ⟨_, operand, ⟨⟩⟩ v ⟨-, -, hoperand, -⟩ h
    obtain ⟨e, he, h⟩ := bind_eq_ok.1 h
    cases h
    exact .unary hop (hoperand e he)

theorem callNode_holds {loc : Loc} {callee : Decoded Node} {args : Decoded (List Node)} {n : Node}
    (hcallee : ∀ e, callee = .ok e → HasSort Q .expr e)
    (hargs : ∀ as, args = .ok as → AllHaveSort Q .expr as) (h : callNode loc callee args = .ok n) :
    HasSort Q .expr n := by
  obtain ⟨e, he, h⟩ := bind_eq_ok.1 h
  obtain ⟨as, has, h⟩ := bind_eq_ok.1 h
  cases h
  exact .call (hcallee e he) (hargs as has)

theorem instantiateNode_holds {loc : Loc} {template : Decoded Node} {args : Decoded (List Node)}
    {n : Node} (htemplate : ∀ e, template = .ok e → HasSort Q .expr e)
    (hargs : ∀ as, args = .ok as → AllHaveSort Q .templateArg as)
    (h : instantiateNode loc template args = .ok n) : HasSort Q .expr n := by
  obtain ⟨e, he, h⟩ := bind_eq_ok.1 h
  obtain ⟨as, has, h⟩ := bind_eq_ok.1 h
  cases h
  exact .instantiate (htemplate e he) (hargs as has)

theorem mixinNode_holds {loc : Loc} {args : Decoded (List Node)} {n : Node}
    (hargs : ∀ as, args = .ok as → AllHaveSort Q .expr as) (h : mixinNode loc args = .ok n) :
    HasSort Q .expr n := by
  obtain ⟨as, has, h⟩ := bind_eq_ok.1 h
  cases h
  exact .mixin (hargs as has)

theorem literal_holds {value : Token → Decoded Constant} {token : Token} {n : Node}
    (hvalue : ∀ c, value token = .ok c → c.IsRead) (h : literal value token = .ok n) :
    HasSort Q .expr n := by
  obtain ⟨c, hc, h⟩ := bind_eq_ok.1 h
  cases h
  exact .literal (hvalue c hc)

theorem interpolation_holds {x : Decoded Interpolation} {n : Node} (hx : ∀ i, x = .ok i → Q i)
    (h : x.map Node.interpolation = .ok n) : HasSort Q .expr n := by
  cases x with
  | error => cases h
  | ok i =>
    cases h
    exact .interpolation (hx i rfl)

theorem operands_preserve : ∀ p ∈ operands, p.Preserves Q := by
  simp only [operands, List.forall_mem_cons]
  refine ⟨?_, ?_, ?_, ?_, ?_, ?_, ?_, ?_, ?_, ?_, ?_, ?_, ?_, ?_, ?_, ?_, ?_, ?_, ?_, ?_,
    nofun⟩
  · rintro start ⟨value, ⟨⟩⟩ v ⟨hvalue, -⟩ h
    exact hvalue v h
  · rintro start ⟨callee, _, _, ⟨⟩⟩ v ⟨hcallee, -⟩ h
    refine callNode_holds hcallee ?_ h
    rintro as ⟨⟩
    exact nofun
  · rintro start ⟨callee, _, args, _, ⟨⟩⟩ v ⟨hcallee, -, -, hargs, -⟩ h
    exact callNode_holds hcallee hargs h
  · rintro start ⟨value, _, ident, ⟨⟩⟩ v ⟨hvalue, -, -, hname, hident, -⟩ h
    obtain ⟨e, he, h⟩ := bind_eq_ok.1 h
    cases h
    exact .member (hvalue e he) (hident.isName hname)
  · rintro start ⟨value, _, offset, _, ⟨⟩⟩ v ⟨hvalue, -, -, hoffset, -⟩ h
    obtain ⟨e, he, h⟩ := bind_eq_ok.1 h
    obtain ⟨i, hi, h⟩ := bind_eq_ok.1 h
    cases h
    exact .index (hvalue e he) (hoffset i hi)
  · rintro start ⟨template, _, _, _, ⟨⟩⟩ v ⟨htemplate, -⟩ h
    refine instantiateNode_holds htemplate ?_ h
    rintro as ⟨⟩
    exact nofun
  · rintro start ⟨template, _, _, args, _, ⟨⟩⟩ v ⟨htemplate, -, -, -, -, hargs, -⟩ h
    exact instantiateNode_holds htemplate hargs h
  · rintro start ⟨ident, ⟨⟩⟩ v ⟨hname, hident, -⟩ h
    cases h
    exact .name (hident.isName hname)
  · rintro start ⟨token, ⟨⟩⟩ v - h
    exact literal_holds (fun _ => Constant.isRead_ofInteger) h
  · rintro start ⟨token, ⟨⟩⟩ v - h
    exact literal_holds (fun _ => Constant.isRead_ofFraction) h
  · rintro start ⟨token, ⟨⟩⟩ v - h
    exact literal_holds (fun _ => Constant.isRead_ofString) h
  · rintro start ⟨token, ⟨⟩⟩ v - h
    refine literal_holds ?_ h
    -- Any text is the value of a raw string.
    rintro c ⟨⟩
    trivial
  · rintro start ⟨token, ⟨⟩⟩ v - h
    exact literal_holds (fun _ => Constant.isRead_ofCharacter) h
  · rintro start ⟨token, ⟨⟩⟩ v ⟨hkind, htoken, -⟩ h
    exact interpolation_holds (htoken.literal hkind) h
  · rintro start ⟨_, ⟨⟩⟩ v - h
    cases h
    exact .literal trivial
  · rintro start ⟨_, ⟨⟩⟩ v - h
    cases h
    exact .literal trivial
  · rintro start ⟨_, ⟨⟩⟩ v - h
    cases h
    exact .literal trivial
  · rintro start ⟨_, _, _, ⟨⟩⟩ v - h
    refine mixinNode_holds ?_ h
    rintro as ⟨⟩
    exact nofun
  · rintro start ⟨_, _, args, _, ⟨⟩⟩ v ⟨-, -, -, -, hargs, -⟩ h
    exact mixinNode_holds hargs h
  · rintro start ⟨_, e, _, ⟨⟩⟩ v ⟨-, -, he, -⟩ h
    exact he v h

theorem arguments_preserve : ∀ p ∈ arguments, p.Preserves Q := by
  simp only [arguments, List.forall_mem_cons]
  refine ⟨?_, ?_, ?_, ?_, ?_, ?_, ?_, ?_, ?_, ?_, nofun⟩
  · rintro start ⟨e, ⟨⟩⟩ v ⟨he, -⟩ h
    exact oneItem_holds he h
  · rintro start ⟨e, es, ⟨⟩⟩ v ⟨he, hes, -⟩ h
    exact consItems_holds he hes h
  · rintro start ⟨_, e, ⟨⟩⟩ v ⟨-, -, he, -⟩ h
    exact oneItem_holds he h
  · rintro start ⟨es, _, e, ⟨⟩⟩ v ⟨hes, -, -, he, -⟩ h
    exact snocItems_holds hes he h
  · rintro start ⟨e, ⟨⟩⟩ v ⟨he, -⟩ h
    exact oneItem_holds he h
  · rintro start ⟨e, es, ⟨⟩⟩ v ⟨he, hes, -⟩ h
    exact consItems_holds he hes h
  · rintro start ⟨_, e, ⟨⟩⟩ v ⟨-, -, he, -⟩ h
    exact oneItem_holds he h
  · rintro start ⟨es, _, e, ⟨⟩⟩ v ⟨hes, -, -, he, -⟩ h
    exact snocItems_holds hes he h
  · rintro start ⟨e, ⟨⟩⟩ v ⟨he, -⟩ h
    exact .exprArg (he v h)
  · rintro start ⟨e, ⟨⟩⟩ v ⟨he, -⟩ h
    exact he v h

theorem withSuffix_holds {reserved : Bool} {t : Node} {s : TypeSuffix}
    (ht : HasSort Q (.type reserved) t) (hs : s.HasSizes Q) :
    HasSort Q (.type reserved) (t.withSuffix s) := by
  -- A suffix takes its place from the type that it stands behind.
  obtain ⟨loc, hloc⟩ := ht.loc_of_type
  cases s with
  | pointer =>
    rw [Node.withSuffix, Node.pointerType, hloc]
    exact .pointer ht
  | slice =>
    rw [Node.withSuffix, Node.arrayType, hloc]
    exact .array ht (.missing _)
  | array size =>
    rw [Node.withSuffix, Node.arrayType, hloc]
    exact .array ht (.present hs)

theorem withSuffixes_holds {reserved : Bool} {t : Node} {ss : List TypeSuffix}
    (ht : HasSort Q (.type reserved) t) (hss : ∀ s ∈ ss, s.HasSizes Q) :
    HasSort Q (.type reserved) (t.withSuffixes ss) := by
  induction ss generalizing t with
  | nil => exact ht
  | cons s ss ih =>
    obtain ⟨hs, hss⟩ := List.forall_mem_cons.1 hss
    exact ih (withSuffix_holds ht hs) hss

theorem suffixedType_holds {reserved : Bool} {base : Decoded Node}
    {suffixes : Decoded (List TypeSuffix)} {t : Node}
    (hbase : ∀ t, base = .ok t → HasSort Q (.type reserved) t)
    (hsuffixes : ∀ ss, suffixes = .ok ss → ∀ s ∈ ss, s.HasSizes Q)
    (h : suffixedType base suffixes = .ok t) : HasSort Q (.type reserved) t := by
  obtain ⟨b, hb, h⟩ := bind_eq_ok.1 h
  obtain ⟨ss, hss, h⟩ := bind_eq_ok.1 h
  cases h
  exact withSuffixes_holds (hbase b hb) (hsuffixes ss hss)

theorem typeArgNode_holds {loc : Loc} {type : Decoded Node} {n : Node}
    (htype : ∀ t, type = .ok t → HasSort Q (.type true) t) (h : typeArgNode loc type = .ok n) :
    HasSort Q .templateArg n := by
  obtain ⟨t, ht, h⟩ := bind_eq_ok.1 h
  cases h
  exact .typeArg (htype t ht)

theorem templateNode_holds {loc : Loc} {name : Decoded Text} {args : Decoded (List Node)}
    {n : Node} (hname : ∀ t, name = .ok t → IsQualifiedName t)
    (hargs : ∀ as, args = .ok as → AllHaveSort Q .templateArg as)
    (h : templateNode loc name args = .ok n) : HasSort Q (.type false) n := by
  obtain ⟨t, ht, h⟩ := bind_eq_ok.1 h
  obtain ⟨as, has, h⟩ := bind_eq_ok.1 h
  cases h
  exact .template (hname t ht) (hargs as has)

theorem isDotted_single {t : Text} (h : IsName t) : IsDotted ('.' :: t) :=
  ⟨[t], List.forall_mem_singleton.2 h, by simp [dotted]⟩

theorem types_preserve : ∀ p ∈ types, p.Preserves Q := by
  simp only [types, List.forall_mem_append, List.forall_mem_cons, List.forall_mem_map]
  refine ⟨⟨⟨⟨?_, ?_, ?_, ?_, ?_, ?_, ?_, ?_, ?_, ?_, ?_, nofun⟩, ?_⟩, ?_⟩,
    ?_, ?_, ?_, ?_, ?_, ?_, ?_, ?_, ?_, nofun⟩
  · rintro start ⟨t, ⟨⟩⟩ v ⟨ht, -⟩ h
    exact typeArgNode_holds ht h
  · rintro start ⟨t, ss, ⟨⟩⟩ v ⟨ht, hss, -⟩ h
    exact typeArgNode_holds (fun _ => suffixedType_holds ht hss) h
  · rintro start ⟨t, ⟨⟩⟩ v ⟨ht, -⟩ h
    exact typeArgNode_holds ht h
  · rintro start ⟨t, ss, ⟨⟩⟩ v ⟨ht, hss, -⟩ h
    exact typeArgNode_holds (fun _ => suffixedType_holds ht hss) h
  · rintro start ⟨t, ⟨⟩⟩ v ⟨ht, -⟩ h
    exact ht v h
  · rintro start ⟨t, ss, ⟨⟩⟩ v ⟨ht, hss, -⟩ h
    exact suffixedType_holds ht hss h
  -- Built-in and qualified types may stand where any type may, and where only such a type may.
  · rintro start ⟨t, ⟨⟩⟩ v ⟨ht, -⟩ h
    exact .anyType (ht v h)
  · rintro start ⟨t, ⟨⟩⟩ v ⟨ht, -⟩ h
    exact .anyType (ht v h)
  · rintro start ⟨name, ⟨⟩⟩ v ⟨hname, -⟩ h
    obtain ⟨t, ht, h⟩ := bind_eq_ok.1 h
    cases h
    exact .named (hname t ht)
  · rintro start ⟨name, _, _, _, ⟨⟩⟩ v ⟨hname, -⟩ h
    refine templateNode_holds hname ?_ h
    rintro as ⟨⟩
    exact nofun
  · rintro start ⟨name, _, _, args, _, ⟨⟩⟩ v ⟨hname, -, -, -, -, hargs, -⟩ h
    exact templateNode_holds hname hargs h
  · rintro b - start ⟨_, ⟨⟩⟩ v - h
    cases h
    exact .builtin b
  · rintro q - start ⟨_, _, inner, _, ⟨⟩⟩ v ⟨-, -, -, -, hinner, -⟩ h
    obtain ⟨t, ht, h⟩ := bind_eq_ok.1 h
    cases h
    exact .qualified q (hinner t ht)
  · rintro start ⟨ident, ⟨⟩⟩ v ⟨hkind, hident, -⟩ h
    cases h
    exact ⟨ident.text, [], hident.isName hkind, nofun, (List.append_nil _).symm⟩
  · rintro start ⟨ident, more, ⟨⟩⟩ v ⟨hkind, hident, hmore, -⟩ h
    obtain ⟨t, ht, h⟩ := bind_eq_ok.1 h
    obtain ⟨ts, hts, h⟩ := bind_eq_ok.1 h
    cases ht
    cases h
    obtain ⟨names, hnames, rfl⟩ := hmore ts hts
    exact ⟨ident.text, names, hident.isName hkind, hnames, rfl⟩
  -- The names behind the first one come in a list that grows at its end.
  · rintro start ⟨_, ident, ⟨⟩⟩ v ⟨-, -, hkind, hident, -⟩ h
    cases h
    exact isDotted_single (hident.isName hkind)
  · rintro start ⟨more, _, ident, ⟨⟩⟩ v ⟨hmore, -, -, hkind, hident, -⟩ h
    obtain ⟨ts, hts, h⟩ := bind_eq_ok.1 h
    obtain ⟨t, ht, h⟩ := bind_eq_ok.1 h
    cases ht
    cases h
    obtain ⟨names, hnames, rfl⟩ := hmore ts hts
    refine ⟨names ++ [ident.text], ?_, by simp [dotted]⟩
    exact List.forall_mem_append.2
      ⟨hnames, List.forall_mem_singleton.2 (hident.isName hkind)⟩
  · rintro start ⟨s, ⟨⟩⟩ v ⟨hs, -⟩ h
    obtain ⟨s, rfl, h⟩ := bind_eq_ok.1 h
    cases h
    exact List.forall_mem_singleton.2 (hs s rfl)
  · rintro start ⟨ss, s, ⟨⟩⟩ v ⟨hss, hs, -⟩ h
    obtain ⟨ss, rfl, h⟩ := bind_eq_ok.1 h
    obtain ⟨s, rfl, h⟩ := bind_eq_ok.1 h
    cases h
    exact List.forall_mem_append.2 ⟨hss ss rfl, List.forall_mem_singleton.2 (hs s rfl)⟩
  · rintro start ⟨_, ⟨⟩⟩ v - h
    cases h
    trivial
  · rintro start ⟨_, _, ⟨⟩⟩ v - h
    cases h
    trivial
  · rintro start ⟨_, size, _, ⟨⟩⟩ v ⟨-, -, hsize, -⟩ h
    obtain ⟨e, he, h⟩ := bind_eq_ok.1 h
    cases h
    exact hsize e he

/-- Every production builds a value that belongs where it stands out of such values. -/
theorem preserves_of_mem {p : Production} (h : p ∈ Production.all) : p.Preserves Q := by
  simp only [all, List.mem_append] at h
  rcases h with (((((h | h) | h) | h) | h) | h) | h
  · exact wholes_preserve p h
  · exact statements_preserve p h
  · exact functions_preserve p h
  · exact operators_preserve p h
  · exact operands_preserve p h
  · exact arguments_preserve p h
  · exact types_preserve p h

end Production

/-- The values of a derivation belong where the grammar puts them. -/
theorem Derives.holds {Q : Interpolation → Prop} {rhs : List Symbol} {values : Symbol.Values rhs}
    {start : Loc} {tokens : List Token} (h : Derives rhs values start tokens)
    (hfits : ∀ token ∈ tokens, token.Fits Q) : Symbol.Values.Hold Q rhs values := by
  induction h with
  | nil => trivial
  | token token kind _ ih =>
    obtain ⟨hfirst, hlater⟩ := List.forall_mem_cons.1 hfits
    exact ⟨kind, hfirst, ih hlater⟩
  -- The tokens of a derived symbol are among those of the row, so what they fit goes down.
  | node mem _ _ ihbelow ihlater =>
    obtain ⟨hbelow, hlater⟩ := List.forall_mem_append.1 hfits
    exact ⟨fun v hv => Production.preserves_of_mem mem _ _ _ (ihbelow hbelow) hv, ihlater hlater⟩

end Splice
