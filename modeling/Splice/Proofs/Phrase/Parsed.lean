import Splice.Proofs.Grammar.Decoding
import Splice.Proofs.Literal.Tokens
import Splice.Proofs.Phrase.Derived

/-!
# What is parsed is a phrase

What the productions derive is a phrase, and the tree that they build is its tree. So a text is
parsed exactly if its tokens are a phrase of the goal, with the tree of the phrase, and no row of
tokens has two trees.

* `Nonterminal.Means`: what the phrases of a nonterminal are.
* `Production.makesPhrase_of_mem`: a production makes such a phrase out of such phrases.
* `parse_eq_ok_iff_isTree`: parsing in terms of phrases.
* `parse_isTree`: the same for a goal and a text whose literals have values.
-/

namespace Splice

/-- Phrases with commas between them, if there are any. -/
def IsRow (c : Category) (ts : List Token) (ns : List Node) : Prop :=
  ∃ ps : List (List Token × Node), (∀ p ∈ ps, Phrase c p.1 p.2) ∧ Row (ps.map (·.1)) ts ∧
    ns = ps.map (·.2)

/-- Phrases with a comma in front of each. -/
def IsTail (c : Category) (ts : List Token) (ns : List Node) : Prop :=
  ∃ ps : List (List Token × Node), (∀ p ∈ ps, Phrase c p.1 p.2) ∧ Tail (ps.map (·.1)) ts ∧
    ns = ps.map (·.2)

/-- A row of tokens that makes a type of any type that stands before it. -/
def IsSuffix (ts : List Token) (f : Node → Node) : Prop :=
  ∀ reserved us t, Phrase (.type reserved) us t → Phrase (.type reserved) (us ++ ts) (f t)

/-- The phrases that are derived from a nonterminal. -/
def Nonterminal.Means : (n : Nonterminal) → List Token → n.Value → Prop
  | .whole _ => fun _ _ => True
  | .program | .statements => Goal.program.IsTree
  | .statement | .declaration | .function | .giveBack | .evaluation => Phrase .statement
  | .block => Phrase .block
  | .params => IsRow .param
  | .moreParams => IsTail .param
  | .param => Phrase .param
  | .expr | .disjunction => Phrase .disjunction
  | .conjunction => Phrase .conjunction
  | .comparison => Phrase .comparison
  | .sum => Phrase .sum
  | .term => Phrase .term
  | .unary => Phrase .unary
  | .suffixed => Phrase .suffixed
  | .primary => Phrase .primary
  | .args => IsRow .expr
  | .moreArgs => IsTail .expr
  | .templateArgs => IsRow .templateArg
  | .moreTemplateArgs => IsTail .templateArg
  | .templateArg | .typeOnly => Phrase .templateArg
  | .type | .typeBase => Phrase (.type false)
  | .builtinType | .qualifiedType => fun ts t => ∀ reserved, Phrase (.type reserved) ts t
  | .qualifiedName => QualifiedName
  | .moreNames => fun ts (t : Text) =>
    ∀ us u, QualifiedName us u → QualifiedName (us ++ ts) (u ++ t)
  | .typeSuffix => fun ts s => IsSuffix ts fun t => t.withSuffix s
  | .typeSuffixes => fun ts ss => IsSuffix ts fun t => t.withSuffixes ss

theorem Nonterminal.means_of_isWhole {n : Nonterminal} (h : n.isWhole = true) {ts : List Token}
    {v : n.Value} : n.Means ts v := by
  cases n with
  | whole => trivial
  | _ => cases h

/-- The tokens of a row of symbols: those of each symbol one behind the other. -/
def Symbol.Values.Mean : (rhs : List Symbol) → Symbol.Values rhs → List Token → Prop
  | [], _, tokens => tokens = []
  | .terminal t :: rest, (token, values), tokens =>
    ∃ later, tokens = token :: later ∧ token.terminal = t ∧ Symbol.Values.Mean rest values later
  | .nonterminal n :: rest, (value, values), tokens =>
    ∃ front back, tokens = front ++ back ∧ (∀ v, value = .ok v → n.Means front v) ∧
      Symbol.Values.Mean rest values back

namespace Production

/-- A production builds the tree of a phrase, if the phrases of its symbols have their trees. -/
def MakesPhrase (p : Production) : Prop :=
  ∀ inner tokens v, Symbol.Values.Mean p.rhs inner tokens →
    p.build (startOf tokens) inner = .ok v → p.lhs.Means tokens v

/-! ## Lists -/

section Lists

variable {c : Category} {x : Decoded Node} {xs : Decoded (List Node)} {ts us : List Token}
  {comma : Token} {ns : List Node}

theorem oneItem_isRow (hx : ∀ n, x = .ok n → Phrase c ts n) (h : oneItem x = .ok ns) :
    IsRow c ts ns := by
  obtain ⟨n, hn, h⟩ := bind_eq_ok.1 h
  cases h
  refine ⟨[(ts, n)], List.forall_mem_singleton.2 (hx n hn), ?_, rfl⟩
  have hrow : Row [ts] (ts ++ []) := .items .nil
  rwa [List.append_nil] at hrow

theorem consItems_isRow (hx : ∀ n, x = .ok n → Phrase c ts n)
    (hxs : ∀ ns, xs = .ok ns → IsTail c us ns) (h : consItems x xs = .ok ns) :
    IsRow c (ts ++ us) ns := by
  obtain ⟨n, hn, h⟩ := bind_eq_ok.1 h
  obtain ⟨later, hlater, h⟩ := bind_eq_ok.1 h
  cases h
  obtain ⟨ps, hps, htail, rfl⟩ := hxs later hlater
  exact ⟨(ts, n) :: ps, List.forall_mem_cons.2 ⟨hx n hn, hps⟩, .items htail, rfl⟩

theorem oneItem_isTail (hcomma : comma.terminal = .mark .comma)
    (hx : ∀ n, x = .ok n → Phrase c ts n) (h : oneItem x = .ok ns) :
    IsTail c (comma :: ts) ns := by
  obtain ⟨n, hn, h⟩ := bind_eq_ok.1 h
  cases h
  refine ⟨[(ts, n)], List.forall_mem_singleton.2 (hx n hn), ?_, rfl⟩
  have htail : Tail [ts] (comma :: (ts ++ [])) := .cons hcomma .nil
  rwa [List.append_nil] at htail

theorem snocItems_isTail (hxs : ∀ ns, xs = .ok ns → IsTail c us ns)
    (hcomma : comma.terminal = .mark .comma) (hx : ∀ n, x = .ok n → Phrase c ts n)
    (h : snocItems xs x = .ok ns) : IsTail c (us ++ comma :: ts) ns := by
  obtain ⟨before, hbefore, h⟩ := bind_eq_ok.1 h
  obtain ⟨n, hn, h⟩ := bind_eq_ok.1 h
  cases h
  obtain ⟨ps, hps, htail, rfl⟩ := hxs before hbefore
  refine ⟨ps ++ [(ts, n)], ?_, ?_, by simp⟩
  · exact List.forall_mem_append.2 ⟨hps, List.forall_mem_singleton.2 (hx n hn)⟩
  · have hlast : Tail [ts] (comma :: (ts ++ [])) := .cons hcomma .nil
    rw [List.append_nil] at hlast
    rw [List.map_append]
    exact htail.append hlast

end Lists

/-! ## Statements -/

theorem wholes_phrase : ∀ p ∈ wholes, p.MakesPhrase := by
  simp only [wholes, List.forall_mem_cons]
  exact ⟨fun _ _ _ _ _ => trivial, fun _ _ _ _ _ => trivial, fun _ _ _ _ _ => trivial,
    List.forall_mem_nil _⟩

theorem statements_phrase : ∀ p ∈ statements, p.MakesPhrase := by
  simp only [statements, List.forall_mem_cons]
  refine ⟨?_, ?_, ?_, ?_, ?_, ?_, ?_, ?_, ?_, ?_, ?_, ?_, ?_, ?_, ?_, ?_, List.forall_mem_nil _⟩
  · rintro ⟨⟩ _ v rfl h
    cases h
    exact ⟨[], rfl, rfl, List.forall_mem_nil _⟩
  · rintro ⟨value, ⟨⟩⟩ _ v ⟨ts, _, rfl, hvalue, rfl⟩ h
    rw [List.append_nil]
    exact hvalue v h
  · rintro ⟨s, ⟨⟩⟩ _ v ⟨ts, _, rfl, hs, rfl⟩ h
    obtain ⟨n, hn, h⟩ := bind_eq_ok.1 h
    cases h
    exact ⟨[(ts, n)], by simp, rfl, List.forall_mem_singleton.2 (hs n hn)⟩
  · rintro ⟨body, s, ⟨⟩⟩ _ v ⟨ts, _, rfl, hbody, us, _, rfl, hs, rfl⟩ h
    obtain ⟨ns, hns, h⟩ := bind_eq_ok.1 h
    obtain ⟨n, hn, h⟩ := bind_eq_ok.1 h
    cases h
    obtain ⟨ss, rfl, rfl, hss⟩ := hbody ns hns
    refine ⟨ss ++ [(us, n)], by simp, by rw [List.map_append]; rfl, ?_⟩
    exact List.forall_mem_append.2 ⟨hss, List.forall_mem_singleton.2 (hs n hn)⟩
  -- The kinds of statements, of which the block is the last and is a category of its own.
  iterate 4
    · rintro ⟨value, ⟨⟩⟩ _ v ⟨ts, _, rfl, hvalue, rfl⟩ h
      rw [List.append_nil]
      exact hvalue v h
  · rintro ⟨value, ⟨⟩⟩ _ v ⟨ts, _, rfl, hvalue, rfl⟩ h
    rw [List.append_nil]
    exact .nested (hvalue v h)
  · rintro ⟨_, ident, _, value, _, ⟨⟩⟩ _ v ⟨_, rfl, hword, _, rfl, hident, _, rfl, hequal,
      us, _, rfl, hvalue, _, rfl, hsemicolon, rfl⟩ h
    obtain ⟨e, he, h⟩ := bind_eq_ok.1 h
    cases h
    exact .declare hword hident .noAscription hequal (hvalue e he) hsemicolon
  · rintro ⟨_, ident, _, type, _, value, _, ⟨⟩⟩ _ v ⟨_, rfl, hword, _, rfl, hident, _, rfl, hcolon,
      ts, _, rfl, htype, _, rfl, hequal, us, _, rfl, hvalue, _, rfl, hsemicolon, rfl⟩ h
    obtain ⟨t, ht, h⟩ := bind_eq_ok.1 h
    obtain ⟨e, he, h⟩ := bind_eq_ok.1 h
    cases h
    exact .declare hword hident (.ascription hcolon (htype t ht)) hequal (hvalue e he) hsemicolon
  · rintro ⟨_, _, ⟨⟩⟩ _ v ⟨_, rfl, hword, _, rfl, hsemicolon, rfl⟩ h
    cases h
    exact .giveBack hword .noResult hsemicolon
  · rintro ⟨_, value, _, ⟨⟩⟩ _ v ⟨_, rfl, hword, ts, _, rfl, hvalue, _, rfl, hsemicolon, rfl⟩ h
    obtain ⟨e, he, h⟩ := bind_eq_ok.1 h
    cases h
    exact .giveBack hword (.result (hvalue e he)) hsemicolon
  · rintro ⟨value, _, ⟨⟩⟩ _ v ⟨ts, _, rfl, hvalue, _, rfl, hsemicolon, rfl⟩ h
    obtain ⟨e, he, h⟩ := bind_eq_ok.1 h
    cases h
    have he := hvalue e he
    rw [startOf_append (he.ne_nil rfl)]
    exact .evaluate he hsemicolon
  · rintro ⟨_, _, ⟨⟩⟩ _ v ⟨_, rfl, hlbrace, _, rfl, hrbrace, rfl⟩ h
    cases h
    have hnone : ∀ s ∈ ([] : List (List Token × Node)), Phrase .statement s.1 s.2 :=
      List.forall_mem_nil _
    exact .block hlbrace hnone hrbrace
  · rintro ⟨_, body, _, ⟨⟩⟩ _ v ⟨_, rfl, hlbrace, ts, _, rfl, hbody, _, rfl, hrbrace, rfl⟩ h
    obtain ⟨ns, hns, h⟩ := bind_eq_ok.1 h
    cases h
    obtain ⟨ss, rfl, rfl, hss⟩ := hbody ns hns
    exact .block hlbrace hss hrbrace

theorem functionNode_phrase {word ident lparen rparen : Token} {params : Decoded (List Node)}
    {result block : Decoded Node} {row ts us : List Token} {n : Node}
    (hword : word.terminal = .keyword .fnWord) (hident : ident.terminal = .name)
    (hlparen : lparen.terminal = .mark .lparen)
    (hparams : ∀ ps, params = .ok ps → IsRow .param row ps)
    (hrparen : rparen.terminal = .mark .rparen)
    (hresult : ∀ t, result = .ok t → Phrase .ascription ts t)
    (hblock : ∀ b, block = .ok b → Phrase .block us b)
    (h : functionNode word.loc ident params result block = .ok n) :
    Phrase .statement (word :: ident :: lparen :: (row ++ rparen :: (ts ++ us))) n := by
  obtain ⟨ps, hps, h⟩ := bind_eq_ok.1 h
  obtain ⟨t, ht, h⟩ := bind_eq_ok.1 h
  obtain ⟨b, hb, h⟩ := bind_eq_ok.1 h
  cases h
  obtain ⟨phrases, hphrases, hrow, rfl⟩ := hparams ps hps
  exact .function hword hident hlparen hphrases hrow hrparen (hresult t ht) (hblock b hb)

theorem isRow_nil {c : Category} {ns : List Node} (h : (.ok [] : Decoded (List Node)) = .ok ns) :
    IsRow c [] ns := by
  cases h
  exact ⟨[], List.forall_mem_nil _, .nothing, rfl⟩

theorem noAscription_phrase {t : Node} (h : (.ok .missing : Decoded Node) = .ok t) :
    Phrase .ascription [] t := by
  cases h
  exact .noAscription

theorem functions_phrase : ∀ p ∈ functions, p.MakesPhrase := by
  simp only [functions, List.forall_mem_cons]
  refine ⟨?_, ?_, ?_, ?_, ?_, ?_, ?_, ?_, ?_, ?_, List.forall_mem_nil _⟩
  · rintro ⟨_, ident, _, _, block, ⟨⟩⟩ _ v ⟨_, rfl, hword, _, rfl, hident, _, rfl, hlparen, _, rfl,
      hrparen, us, _, rfl, hblock, rfl⟩ h
    rw [List.append_nil]
    exact functionNode_phrase hword hident hlparen (fun _ => isRow_nil) hrparen
      (fun _ => noAscription_phrase) hblock h
  · rintro ⟨_, ident, _, _, _, result, block, ⟨⟩⟩ _ v ⟨_, rfl, hword, _, rfl, hident,
      _, rfl, hlparen, _, rfl, hrparen, _, rfl, hcolon, ts, _, rfl, hresult, us, _, rfl, hblock,
      rfl⟩ h
    rw [List.append_nil]
    exact functionNode_phrase hword hident hlparen (fun _ => isRow_nil) hrparen
      (fun t ht => .ascription hcolon (hresult t ht)) hblock h
  · rintro ⟨_, ident, _, params, _, block, ⟨⟩⟩ _ v ⟨_, rfl, hword, _, rfl, hident, _, rfl, hlparen,
      row, _, rfl, hparams, _, rfl, hrparen, us, _, rfl, hblock, rfl⟩ h
    rw [List.append_nil]
    exact functionNode_phrase hword hident hlparen hparams hrparen (fun _ => noAscription_phrase)
      hblock h
  · rintro ⟨_, ident, _, params, _, _, result, block, ⟨⟩⟩ _ v ⟨_, rfl, hword, _, rfl, hident,
      _, rfl, hlparen, row, _, rfl, hparams, _, rfl, hrparen, _, rfl, hcolon, ts, _, rfl, hresult,
      us, _, rfl, hblock, rfl⟩ h
    rw [List.append_nil]
    exact functionNode_phrase hword hident hlparen hparams hrparen
      (fun t ht => .ascription hcolon (hresult t ht)) hblock h
  · rintro ⟨x, ⟨⟩⟩ _ v ⟨ts, _, rfl, hx, rfl⟩ h
    rw [List.append_nil]
    exact oneItem_isRow hx h
  · rintro ⟨x, xs, ⟨⟩⟩ _ v ⟨ts, _, rfl, hx, us, _, rfl, hxs, rfl⟩ h
    rw [List.append_nil]
    exact consItems_isRow hx hxs h
  · rintro ⟨_, x, ⟨⟩⟩ _ v ⟨_, rfl, hcomma, ts, _, rfl, hx, rfl⟩ h
    rw [List.append_nil]
    exact oneItem_isTail hcomma hx h
  · rintro ⟨xs, _, x, ⟨⟩⟩ _ v ⟨us, _, rfl, hxs, _, rfl, hcomma, ts, _, rfl, hx, rfl⟩ h
    rw [List.append_nil]
    exact snocItems_isTail hxs hcomma hx h
  · rintro ⟨ident, _, type, ⟨⟩⟩ _ v ⟨_, rfl, hident, _, rfl, hcolon, ts, _, rfl, htype, rfl⟩ h
    obtain ⟨t, ht, h⟩ := bind_eq_ok.1 h
    cases h
    exact .param hident hcolon (htype t ht) .noDefault
  · rintro ⟨ident, _, type, _, value, ⟨⟩⟩ _ v ⟨_, rfl, hident, _, rfl, hcolon, ts, _, rfl, htype, _,
      rfl, hequal, us, _, rfl, hvalue, rfl⟩ h
    obtain ⟨e, he, h⟩ := bind_eq_ok.1 h
    obtain ⟨t, ht, h⟩ := bind_eq_ok.1 h
    cases h
    rw [List.append_nil]
    exact .param hident hcolon (htype t ht) (.default hequal (hvalue e he))

/-! ## Expressions -/

section Expressions

variable {c d whole : Category} {op : BinaryOp} {left right : Decoded Node} {ts us : List Token}
  {mark : Token} {n : Node}

/-- An operator between two phrases. -/
theorem binary_phrase (hc : c.isOptional = false) (hleft : ∀ e, left = .ok e → Phrase c ts e)
    (hright : ∀ e, right = .ok e → Phrase d us e)
    (hn : ∀ l r, Phrase c ts l → Phrase d us r →
      Phrase whole (ts ++ mark :: us) (.binary (startOf ts) op l r))
    (h : binary (startOf (ts ++ mark :: us)) op left right = .ok n) :
    Phrase whole (ts ++ mark :: us) n := by
  obtain ⟨l, hl, h⟩ := bind_eq_ok.1 h
  obtain ⟨r, hr, h⟩ := bind_eq_ok.1 h
  cases h
  rw [startOf_append ((hleft l hl).ne_nil hc)]
  exact hn l r (hleft l hl) (hright r hr)

theorem operators_phrase : ∀ p ∈ operators, p.MakesPhrase := by
  simp only [operators, List.forall_mem_append, List.forall_mem_cons, List.forall_mem_map]
  refine ⟨⟨⟨⟨⟨⟨⟨⟨?_, ?_, ?_, ?_, ?_, ?_, List.forall_mem_nil _⟩, ?_⟩, ?_,
    List.forall_mem_nil _⟩, ?_⟩, ?_, List.forall_mem_nil _⟩, ?_⟩, ?_, List.forall_mem_nil _⟩, ?_⟩
  -- The levels follow each other from weak to strong: a level is the next one, or it has
  -- operators of its own, which come from a table where they are several.
  · rintro ⟨value, ⟨⟩⟩ _ v ⟨ts, _, rfl, hvalue, rfl⟩ h
    rw [List.append_nil]
    exact hvalue v h
  · rintro ⟨value, ⟨⟩⟩ _ v ⟨ts, _, rfl, hvalue, rfl⟩ h
    rw [List.append_nil]
    exact .ofConjunction (hvalue v h)
  · rintro ⟨l, _, r, ⟨⟩⟩ _ v ⟨ts, _, rfl, hl, mark, rfl, hmark, us, _, rfl, hr, rfl⟩ h
    rw [List.append_nil] at h ⊢
    exact binary_phrase rfl hl hr (fun _ _ hl hr => .or hl hmark hr) h
  · rintro ⟨value, ⟨⟩⟩ _ v ⟨ts, _, rfl, hvalue, rfl⟩ h
    rw [List.append_nil]
    exact .ofComparison (hvalue v h)
  · rintro ⟨l, _, r, ⟨⟩⟩ _ v ⟨ts, _, rfl, hl, mark, rfl, hmark, us, _, rfl, hr, rfl⟩ h
    rw [List.append_nil] at h ⊢
    exact binary_phrase rfl hl hr (fun _ _ hl hr => .and hl hmark hr) h
  · rintro ⟨value, ⟨⟩⟩ _ v ⟨ts, _, rfl, hvalue, rfl⟩ h
    rw [List.append_nil]
    exact .ofSum (hvalue v h)
  · rintro ⟨m, op⟩ hop ⟨l, _, r, ⟨⟩⟩ _ v ⟨ts, _, rfl, hl, mark, rfl, hmark, us, _, rfl, hr, rfl⟩ h
    rw [List.append_nil] at h ⊢
    exact binary_phrase rfl hl hr (fun _ _ hl hr => .comparison hop hl hmark hr) h
  · rintro ⟨value, ⟨⟩⟩ _ v ⟨ts, _, rfl, hvalue, rfl⟩ h
    rw [List.append_nil]
    exact .ofTerm (hvalue v h)
  · rintro ⟨m, op⟩ hop ⟨l, _, r, ⟨⟩⟩ _ v ⟨ts, _, rfl, hl, mark, rfl, hmark, us, _, rfl, hr, rfl⟩ h
    rw [List.append_nil] at h ⊢
    exact binary_phrase rfl hl hr (fun _ _ hl hr => .sum hop hl hmark hr) h
  · rintro ⟨value, ⟨⟩⟩ _ v ⟨ts, _, rfl, hvalue, rfl⟩ h
    rw [List.append_nil]
    exact .ofUnary (hvalue v h)
  · rintro ⟨m, op⟩ hop ⟨l, _, r, ⟨⟩⟩ _ v ⟨ts, _, rfl, hl, mark, rfl, hmark, us, _, rfl, hr, rfl⟩ h
    rw [List.append_nil] at h ⊢
    exact binary_phrase rfl hl hr (fun _ _ hl hr => .product hop hl hmark hr) h
  · rintro ⟨value, ⟨⟩⟩ _ v ⟨ts, _, rfl, hvalue, rfl⟩ h
    rw [List.append_nil]
    exact .ofSuffixed (hvalue v h)
  · rintro ⟨m, op⟩ hop ⟨_, operand, ⟨⟩⟩ _ v ⟨mark, rfl, hmark, ts, _, rfl, hoperand, rfl⟩ h
    obtain ⟨e, he, h⟩ := bind_eq_ok.1 h
    cases h
    rw [List.append_nil]
    exact .unary hop hmark (hoperand e he)

theorem callNode_phrase {lparen rparen : Token} {callee : Decoded Node} {args : Decoded (List Node)}
    {row : List Token} (hcallee : ∀ e, callee = .ok e → Phrase .suffixed ts e)
    (hlparen : lparen.terminal = .mark .lparen) (hargs : ∀ as, args = .ok as → IsRow .expr row as)
    (hrparen : rparen.terminal = .mark .rparen)
    (h : callNode (startOf (ts ++ lparen :: (row ++ [rparen]))) callee args = .ok n) :
    Phrase .suffixed (ts ++ lparen :: (row ++ [rparen])) n := by
  obtain ⟨e, he, h⟩ := bind_eq_ok.1 h
  obtain ⟨as, has, h⟩ := bind_eq_ok.1 h
  cases h
  obtain ⟨phrases, hphrases, hrow, rfl⟩ := hargs as has
  have he := hcallee e he
  rw [startOf_append (he.ne_nil rfl)]
  exact .call he hlparen hphrases hrow hrparen

theorem instantiateNode_phrase {bang lparen rparen : Token} {template : Decoded Node}
    {args : Decoded (List Node)} {row : List Token}
    (htemplate : ∀ e, template = .ok e → Phrase .suffixed ts e)
    (hbang : bang.terminal = .mark .bang) (hlparen : lparen.terminal = .mark .lparen)
    (hargs : ∀ as, args = .ok as → IsRow .templateArg row as)
    (hrparen : rparen.terminal = .mark .rparen)
    (h : instantiateNode (startOf (ts ++ bang :: lparen :: (row ++ [rparen]))) template args =
      .ok n) :
    Phrase .suffixed (ts ++ bang :: lparen :: (row ++ [rparen])) n := by
  obtain ⟨e, he, h⟩ := bind_eq_ok.1 h
  obtain ⟨as, has, h⟩ := bind_eq_ok.1 h
  cases h
  obtain ⟨phrases, hphrases, hrow, rfl⟩ := hargs as has
  have he := htemplate e he
  rw [startOf_append (he.ne_nil rfl)]
  exact .instantiate he hbang hlparen hphrases hrow hrparen

theorem mixinNode_phrase {word lparen rparen : Token} {args : Decoded (List Node)}
    {row : List Token} (hword : word.terminal = .keyword .mixinWord)
    (hlparen : lparen.terminal = .mark .lparen) (hargs : ∀ as, args = .ok as → IsRow .expr row as)
    (hrparen : rparen.terminal = .mark .rparen) (h : mixinNode word.loc args = .ok n) :
    Phrase .primary (word :: lparen :: (row ++ [rparen])) n := by
  obtain ⟨as, has, h⟩ := bind_eq_ok.1 h
  cases h
  obtain ⟨phrases, hphrases, hrow, rfl⟩ := hargs as has
  exact .mixin hword hlparen hphrases hrow hrparen

/-- The tree of a literal token. -/
theorem literal_phrase {value : Token → Decoded Constant} {token : Token}
    (hvalue : ∀ c, value token = .ok c → Phrase .primary [token] (.literal token.loc c))
    (h : literal value token = .ok n) : Phrase .primary [token] n := by
  obtain ⟨c, hc, h⟩ := bind_eq_ok.1 h
  cases h
  exact hvalue c hc

theorem interpolation_phrase {token : Token} (htoken : token.terminal = .interpolatedLit)
    (h : (Interpolation.ofToken token).map Node.interpolation = .ok n) :
    Phrase .primary [token] n := by
  cases hi : Interpolation.ofToken token with
  | error => rw [hi] at h; cases h
  | ok i =>
    rw [hi] at h
    cases h
    exact .interpolation htoken hi

theorem operands_phrase : ∀ p ∈ operands, p.MakesPhrase := by
  simp only [operands, List.forall_mem_cons]
  refine ⟨?_, ?_, ?_, ?_, ?_, ?_, ?_, ?_, ?_, ?_, ?_, ?_, ?_, ?_, ?_, ?_, ?_, ?_, ?_, ?_,
    List.forall_mem_nil _⟩
  · rintro ⟨value, ⟨⟩⟩ _ v ⟨ts, _, rfl, hvalue, rfl⟩ h
    rw [List.append_nil]
    exact .ofPrimary (hvalue v h)
  · rintro ⟨callee, _, _, ⟨⟩⟩ _ v ⟨ts, _, rfl, hcallee, _, rfl, hlparen, _, rfl, hrparen, rfl⟩ h
    exact callNode_phrase hcallee hlparen (fun _ => isRow_nil) hrparen h
  · rintro ⟨callee, _, args, _, ⟨⟩⟩ _ v ⟨ts, _, rfl, hcallee, _, rfl, hlparen, row, _, rfl, hargs,
      _, rfl, hrparen, rfl⟩ h
    exact callNode_phrase hcallee hlparen hargs hrparen h
  · rintro ⟨value, _, ident, ⟨⟩⟩ _ v ⟨ts, _, rfl, hvalue, _, rfl, hdot, _, rfl, hident, rfl⟩ h
    obtain ⟨e, he, h⟩ := bind_eq_ok.1 h
    cases h
    have he := hvalue e he
    rw [startOf_append (he.ne_nil rfl)]
    exact .member he hdot hident
  · rintro ⟨value, _, offset, _, ⟨⟩⟩ _ v ⟨ts, _, rfl, hvalue, _, rfl, hlbracket, us, _, rfl,
      hoffset, _, rfl, hrbracket, rfl⟩ h
    obtain ⟨e, he, h⟩ := bind_eq_ok.1 h
    obtain ⟨i, hi, h⟩ := bind_eq_ok.1 h
    cases h
    have he := hvalue e he
    rw [startOf_append (he.ne_nil rfl)]
    exact .index he hlbracket (hoffset i hi) hrbracket
  · rintro ⟨template, _, _, _, ⟨⟩⟩ _ v ⟨ts, _, rfl, htemplate, _, rfl, hbang, _, rfl, hlparen,
      _, rfl, hrparen, rfl⟩ h
    exact instantiateNode_phrase htemplate hbang hlparen (fun _ => isRow_nil) hrparen h
  · rintro ⟨template, _, _, args, _, ⟨⟩⟩ _ v ⟨ts, _, rfl, htemplate, _, rfl, hbang, _, rfl, hlparen,
      row, _, rfl, hargs, _, rfl, hrparen, rfl⟩ h
    exact instantiateNode_phrase htemplate hbang hlparen hargs hrparen h
  · rintro ⟨ident, ⟨⟩⟩ _ v ⟨_, rfl, hident, rfl⟩ h
    cases h
    exact .name hident
  · rintro ⟨token, ⟨⟩⟩ _ v ⟨_, rfl, htoken, rfl⟩ h
    exact literal_phrase (fun _ => .integer htoken) h
  · rintro ⟨token, ⟨⟩⟩ _ v ⟨_, rfl, htoken, rfl⟩ h
    exact literal_phrase (fun _ => .fraction htoken) h
  · rintro ⟨token, ⟨⟩⟩ _ v ⟨_, rfl, htoken, rfl⟩ h
    exact literal_phrase (fun _ => .string htoken) h
  · rintro ⟨token, ⟨⟩⟩ _ v ⟨_, rfl, htoken, rfl⟩ h
    exact literal_phrase (fun _ => .rawString htoken) h
  · rintro ⟨token, ⟨⟩⟩ _ v ⟨_, rfl, htoken, rfl⟩ h
    exact literal_phrase (fun _ => .character htoken) h
  · rintro ⟨token, ⟨⟩⟩ _ v ⟨_, rfl, htoken, rfl⟩ h
    exact interpolation_phrase htoken h
  · rintro ⟨token, ⟨⟩⟩ _ v ⟨_, rfl, htoken, rfl⟩ h
    cases h
    exact .isTrue htoken
  · rintro ⟨token, ⟨⟩⟩ _ v ⟨_, rfl, htoken, rfl⟩ h
    cases h
    exact .isFalse htoken
  · rintro ⟨token, ⟨⟩⟩ _ v ⟨_, rfl, htoken, rfl⟩ h
    cases h
    exact .null htoken
  · rintro ⟨_, _, _, ⟨⟩⟩ _ v ⟨_, rfl, hword, _, rfl, hlparen, _, rfl, hrparen, rfl⟩ h
    exact mixinNode_phrase hword hlparen (fun _ => isRow_nil) hrparen h
  · rintro ⟨_, _, args, _, ⟨⟩⟩ _ v ⟨_, rfl, hword, _, rfl, hlparen, row, _, rfl, hargs, _, rfl,
      hrparen, rfl⟩ h
    exact mixinNode_phrase hword hlparen hargs hrparen h
  · rintro ⟨_, e, _, ⟨⟩⟩ _ v ⟨_, rfl, hlparen, ts, _, rfl, he, _, rfl, hrparen, rfl⟩ h
    exact .parentheses hlparen (he v h) hrparen

theorem arguments_phrase : ∀ p ∈ arguments, p.MakesPhrase := by
  simp only [arguments, List.forall_mem_cons]
  refine ⟨?_, ?_, ?_, ?_, ?_, ?_, ?_, ?_, ?_, ?_, List.forall_mem_nil _⟩
  -- Both kinds of lists have the same four productions: one item, several, and a tail of one and
  -- of several.
  iterate 2
    · rintro ⟨x, ⟨⟩⟩ _ v ⟨ts, _, rfl, hx, rfl⟩ h
      rw [List.append_nil]
      exact oneItem_isRow hx h
    · rintro ⟨x, xs, ⟨⟩⟩ _ v ⟨ts, _, rfl, hx, us, _, rfl, hxs, rfl⟩ h
      rw [List.append_nil]
      exact consItems_isRow hx hxs h
    · rintro ⟨_, x, ⟨⟩⟩ _ v ⟨_, rfl, hcomma, ts, _, rfl, hx, rfl⟩ h
      rw [List.append_nil]
      exact oneItem_isTail hcomma hx h
    · rintro ⟨xs, _, x, ⟨⟩⟩ _ v ⟨us, _, rfl, hxs, _, rfl, hcomma, ts, _, rfl, hx, rfl⟩ h
      rw [List.append_nil]
      exact snocItems_isTail hxs hcomma hx h
  -- An argument of a template is an expression or a type.
  · rintro ⟨e, ⟨⟩⟩ _ v ⟨ts, _, rfl, he, rfl⟩ h
    rw [List.append_nil]
    exact .exprArg (he v h)
  · rintro ⟨e, ⟨⟩⟩ _ v ⟨ts, _, rfl, he, rfl⟩ h
    rw [List.append_nil]
    exact he v h

end Expressions

/-! ## Types -/

section Types

variable {ts us : List Token} {base : Decoded Node} {n : Node}

theorem suffixedType_phrase {reserved : Bool} {suffixes : Decoded (List TypeSuffix)}
    (hbase : ∀ t, base = .ok t → Phrase (.type reserved) ts t)
    (hsuffixes : ∀ ss, suffixes = .ok ss → IsSuffix us fun t => t.withSuffixes ss)
    (h : suffixedType base suffixes = .ok n) : Phrase (.type reserved) (ts ++ us) n := by
  obtain ⟨t, ht, h⟩ := bind_eq_ok.1 h
  obtain ⟨ss, hss, h⟩ := bind_eq_ok.1 h
  cases h
  exact hsuffixes ss hss reserved ts t (hbase t ht)

theorem typeArgNode_phrase (htype : ∀ t, base = .ok t → Phrase (.type true) ts t)
    (h : typeArgNode (startOf ts) base = .ok n) : Phrase .templateArg ts n := by
  obtain ⟨t, ht, h⟩ := bind_eq_ok.1 h
  cases h
  exact .typeArg (htype t ht)

theorem templateNode_phrase {bang lparen rparen : Token} {name : Decoded Text}
    {args : Decoded (List Node)} {row : List Token}
    (hname : ∀ t, name = .ok t → QualifiedName ts t)
    (hbang : bang.terminal = .mark .bang) (hlparen : lparen.terminal = .mark .lparen)
    (hargs : ∀ as, args = .ok as → IsRow .templateArg row as)
    (hrparen : rparen.terminal = .mark .rparen)
    (h : templateNode (startOf (ts ++ bang :: lparen :: (row ++ [rparen]))) name args = .ok n) :
    Phrase (.type false) (ts ++ bang :: lparen :: (row ++ [rparen])) n := by
  obtain ⟨t, ht, h⟩ := bind_eq_ok.1 h
  obtain ⟨as, has, h⟩ := bind_eq_ok.1 h
  cases h
  obtain ⟨phrases, hphrases, hrow, rfl⟩ := hargs as has
  have hname := hname t ht
  rw [startOf_append hname.ne_nil]
  exact .template hname hbang hlparen hphrases hrow hrparen

theorem types_phrase : ∀ p ∈ types, p.MakesPhrase := by
  simp only [types, List.forall_mem_append, List.forall_mem_cons, List.forall_mem_map]
  refine ⟨⟨⟨⟨?_, ?_, ?_, ?_, ?_, ?_, ?_, ?_, ?_, ?_, ?_, List.forall_mem_nil _⟩, ?_⟩, ?_⟩,
    ?_, ?_, ?_, ?_, ?_, ?_, ?_, ?_, ?_, List.forall_mem_nil _⟩
  -- Types that begin like no expression does, with a word of the language: built in and qualified
  -- ones, each without suffixes and with them.
  iterate 2
    · rintro ⟨t, ⟨⟩⟩ _ v ⟨ts, _, rfl, ht, rfl⟩ h
      rw [List.append_nil] at h ⊢
      exact typeArgNode_phrase (fun t h => ht t h true) h
    · rintro ⟨t, ss, ⟨⟩⟩ _ v ⟨ts, _, rfl, ht, us, _, rfl, hss, rfl⟩ h
      rw [List.append_nil] at h ⊢
      exact typeArgNode_phrase (fun _ => suffixedType_phrase (fun t h => ht t h true) hss) h
  · rintro ⟨t, ⟨⟩⟩ _ v ⟨ts, _, rfl, ht, rfl⟩ h
    rw [List.append_nil]
    exact ht v h
  · rintro ⟨t, ss, ⟨⟩⟩ _ v ⟨ts, _, rfl, ht, us, _, rfl, hss, rfl⟩ h
    rw [List.append_nil]
    exact suffixedType_phrase ht hss h
  iterate 2
    · rintro ⟨t, ⟨⟩⟩ _ v ⟨ts, _, rfl, ht, rfl⟩ h
      rw [List.append_nil]
      exact ht v h false
  · rintro ⟨name, ⟨⟩⟩ _ v ⟨ts, _, rfl, hname, rfl⟩ h
    obtain ⟨t, ht, h⟩ := bind_eq_ok.1 h
    cases h
    rw [List.append_nil]
    exact .named (hname t ht)
  · rintro ⟨name, _, _, _, ⟨⟩⟩ _ v ⟨ts, _, rfl, hname, _, rfl, hbang, _, rfl, hlparen, _, rfl,
      hrparen, rfl⟩ h
    exact templateNode_phrase hname hbang hlparen (fun _ => isRow_nil) hrparen h
  · rintro ⟨name, _, _, args, _, ⟨⟩⟩ _ v ⟨ts, _, rfl, hname, _, rfl, hbang, _, rfl, hlparen, row, _,
      rfl, hargs, _, rfl, hrparen, rfl⟩ h
    exact templateNode_phrase hname hbang hlparen hargs hrparen h
  -- The productions that are made from a table, one for each reserved word.
  · rintro b - ⟨_, ⟨⟩⟩ _ v ⟨_, rfl, hword, rfl⟩ h reserved
    cases h
    exact .builtin hword
  · rintro q - ⟨_, _, inner, _, ⟨⟩⟩ _ v ⟨_, rfl, hword, _, rfl, hlparen, ts, _, rfl, hinner, _, rfl,
      hrparen, rfl⟩ h reserved
    obtain ⟨t, ht, h⟩ := bind_eq_ok.1 h
    cases h
    exact .qualified hword hlparen (hinner t ht) hrparen
  · rintro ⟨ident, ⟨⟩⟩ _ v ⟨_, rfl, hident, rfl⟩ h
    cases h
    exact .name hident
  · rintro ⟨ident, more, ⟨⟩⟩ _ v ⟨_, rfl, hident, us, _, rfl, hmore, rfl⟩ h
    obtain ⟨t, ht, h⟩ := bind_eq_ok.1 h
    obtain ⟨m, hm, h⟩ := bind_eq_ok.1 h
    cases ht
    cases h
    rw [List.append_nil]
    exact hmore m hm _ _ (.name hident)
  · rintro ⟨_, ident, ⟨⟩⟩ _ v ⟨_, rfl, hdot, _, rfl, hident, rfl⟩ h us u hu
    cases h
    exact .dot hu hdot hident
  · rintro ⟨more, _, ident, ⟨⟩⟩ _ v ⟨ts, _, rfl, hmore, _, rfl, hdot, _, rfl, hident, rfl⟩ h us u hu
    obtain ⟨m, hm, h⟩ := bind_eq_ok.1 h
    obtain ⟨t, ht, h⟩ := bind_eq_ok.1 h
    cases ht
    cases h
    rw [← List.append_assoc, ← List.append_assoc]
    exact .dot (hmore m hm us u hu) hdot hident
  -- The suffixes of a type, which make a phrase of every base that is one.
  · rintro ⟨s, ⟨⟩⟩ _ v ⟨ts, _, rfl, hs, rfl⟩ h
    obtain ⟨s, rfl, h⟩ := bind_eq_ok.1 h
    cases h
    rw [List.append_nil]
    exact hs s rfl
  · rintro ⟨ss, s, ⟨⟩⟩ _ v ⟨ts, _, rfl, hss, us, _, rfl, hs, rfl⟩ h reserved base t ht
    obtain ⟨ss, rfl, h⟩ := bind_eq_ok.1 h
    obtain ⟨s, rfl, h⟩ := bind_eq_ok.1 h
    cases h
    have hsuffixed := hs s rfl reserved _ _ (hss ss rfl reserved base t ht)
    rw [List.append_nil, ← List.append_assoc]
    dsimp only
    rw [Node.withSuffixes_snoc]
    exact hsuffixed
  · rintro ⟨_, ⟨⟩⟩ _ v ⟨_, rfl, hstar, rfl⟩ h reserved base t ht
    cases h
    exact .pointer ht hstar
  · rintro ⟨_, _, ⟨⟩⟩ _ v ⟨_, rfl, hlbracket, _, rfl, hrbracket, rfl⟩ h reserved base t ht
    cases h
    exact .slice ht hlbracket hrbracket
  · rintro ⟨_, size, _, ⟨⟩⟩ _ v ⟨_, rfl, hlbracket, us, _, rfl, hsize, _, rfl, hrbracket, rfl⟩ h
      reserved base t ht
    obtain ⟨e, he, h⟩ := bind_eq_ok.1 h
    cases h
    exact .array ht hlbracket (hsize e he) hrbracket

end Types

/-- A production makes a phrase out of the phrases of its symbols. -/
theorem makesPhrase_of_mem {p : Production} (h : p ∈ all) : p.MakesPhrase := by
  simp only [all, List.mem_append] at h
  rcases h with (((((h | h) | h) | h) | h) | h) | h
  · exact wholes_phrase p h
  · exact statements_phrase p h
  · exact functions_phrase p h
  · exact operators_phrase p h
  · exact operands_phrase p h
  · exact arguments_phrase p h
  · exact types_phrase p h

/-- Only whole texts start with a symbol that may derive nothing. -/
def isStarted (p : Production) : Bool := p.rhs.head?.all Symbol.isInner || p.lhs.isWhole

theorem isStarted_of_mem : ∀ p ∈ all, p.isStarted = true := by decide +kernel

end Production

/-- The tokens of a derivation are phrases of its symbols. -/
theorem Derives.mean {rhs : List Symbol} {values : Symbol.Values rhs} {start : Loc}
    {tokens : List Token} (h : Derives rhs values start tokens) :
    Symbol.Values.Mean rhs values tokens := by
  induction h with
  | nil => rfl
  | token token kind _ ih => exact ⟨_, rfl, kind, ih⟩
  | @node p _ _ _ _ _ _ _ mem below _ ihbelow ihlater =>
    refine ⟨_, _, rfl, fun v hv => ?_, ihlater⟩
    -- Where a symbol that may derive nothing comes first, the start says nothing about the
    -- tokens, and the symbol is a whole text.
    have hstarted := Production.isStarted_of_mem p mem
    simp only [Production.isStarted, Bool.or_eq_true, Option.all_eq_true] at hstarted
    rcases hstarted with hfirst | hwhole
    · obtain rfl := (below.starts hfirst).1
      exact Production.makesPhrase_of_mem mem _ _ v ihbelow hv
    · exact Nonterminal.means_of_isWhole hwhole

section Parse

variable {goal : Goal} {source : Text}

/-- A text is parsed exactly if its tokens are a phrase of the goal, with the tree of the phrase. -/
theorem parse_eq_ok_iff_isTree {v : goal.body.Value} :
    parse goal source = .ok v ↔ (Lexed.ofText source).fault = none ∧
      goal.IsTree (Lexed.ofText source).tokens v := by
  rw [parse_eq_ok_iff]
  refine and_congr_right fun _ => ⟨?_, Goal.IsTree.derives⟩
  rintro ⟨start, h⟩
  obtain ⟨tokens, _, htokens, hv, rfl⟩ := h.mean
  rw [List.append_nil] at htokens
  rw [htokens]
  cases goal <;> exact hv v rfl

/-- A text that lexes completely and whose literals have values is parsed exactly if its tokens are
a phrase of the goal, with the tree of the phrase; there is no other tree; and all other such texts
have a syntax error. -/
theorem parse_isTree (hlexed : (Lexed.ofText source).fault = none)
    (hvalues : ∀ token ∈ (Lexed.ofText source).tokens, token.terminal.hasValue token = true) :
    (∀ v, parse goal source = .ok v ↔ goal.IsTree (Lexed.ofText source).tokens v) ∧
    (∀ v v', goal.IsTree (Lexed.ofText source).tokens v →
      goal.IsTree (Lexed.ofText source).tokens v' → v = v') ∧
    ((∃ e, parse goal source = .error (.shape e)) ↔
      ¬ ∃ v, goal.IsTree (Lexed.ofText source).tokens v) := by
  have hparse (v : goal.body.Value) :
      parse goal source = .ok v ↔ goal.IsTree (Lexed.ofText source).tokens v :=
    parse_eq_ok_iff_isTree.trans (and_iff_right hlexed)
  refine ⟨hparse, fun v v' hv hv' => ?_, ?_, ?_⟩
  · have heq := ((hparse v).2 hv).symm.trans ((hparse v').2 hv')
    exact Except.ok.inj heq
  · rintro ⟨e, he⟩ ⟨v, hv⟩
    rw [(hparse v).2 hv] at he
    cases he
  · intro hnone
    match h : parse goal source with
    | .ok v => exact absurd ⟨v, (hparse v).1 h⟩ hnone
    | .error (.shape e) => exact ⟨e, rfl⟩
    | .error (.literal fault) =>
      -- A derivation with a faulty value has a token that has none.
      obtain ⟨-, start, hder⟩ := parse_eq_literal_iff.1 h
      have hall := hder.allOk_eq
      rw [List.all_eq_true.2 hvalues] at hall
      cases hall

/-- A comparison. -/
theorem parse_isTree_comparison :
    let tokens : List Token :=
      [⟨.name, ['a'], 0, ⟨1, 1⟩⟩, ⟨.mark .lt, ['<'], 1, ⟨1, 2⟩⟩, ⟨.name, ['b'], 2, ⟨1, 3⟩⟩]
    let tree : Node := .binary ⟨1, 1⟩ .lt (.name ⟨1, 1⟩ ['a']) (.name ⟨1, 3⟩ ['b'])
    (Lexed.ofText ['a', '<', 'b']).fault = none ∧ (Lexed.ofText ['a', '<', 'b']).tokens = tokens ∧
      (∀ token ∈ tokens, token.terminal.hasValue token = true) ∧ Goal.expr.IsTree tokens tree ∧
      parse .expr ['a', '<', 'b'] = .ok tree := by
  intro tokens tree
  have hlexed : (Lexed.ofText ['a', '<', 'b']).fault = none := by decide
  have htokens : (Lexed.ofText ['a', '<', 'b']).tokens = tokens := by decide
  have hvalues : ∀ token ∈ tokens, token.terminal.hasValue token = true := by decide
  have hname {token : Token} (h : token.terminal = .name) :
      Phrase .sum [token] (.name token.loc token.text) :=
    .ofTerm (.ofUnary (.ofSuffixed (.ofPrimary (.name h))))
  have htree : Phrase .expr tokens tree :=
    .ofConjunction (.ofComparison (.comparison (m := .lt) (by decide) (hname rfl) rfl (hname rfl)))
  refine ⟨hlexed, htokens, hvalues, htree, ?_⟩
  exact ((@parse_isTree .expr _ hlexed (htokens ▸ hvalues)).1 tree).2 (htokens ▸ htree)

end Parse

end Splice
