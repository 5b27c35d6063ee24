import Splice.Proofs.Grammar.Completeness
import Splice.Proofs.Grammar.Reading
import Splice.Proofs.Phrase.Basic

/-!
# Phrases are derived

Every phrase is derived by the productions of the host grammar, and the productions build its tree.
Where the grammar repeats something, the productions take it from the left.

* `Nonterminal.Derived`: a row of tokens is derived from a nonterminal.
* `Nonterminal.Lists`: how the productions put lists together; `Lists.row`: rows are such lists.
* `Phrase.derived`: the derivation of a phrase.
* `Goal.IsTree.derives`: the derivation of a whole text.
-/

namespace Splice

theorem Production.isInner_of_mem {p : Production} (mem : p ∈ all) (h : p.lhs.isInner = true) :
    p.rhs ≠ [] ∧ ∀ s ∈ p.rhs.head?, s.isInner = true := by
  have hgrounded := isGrounded_of_mem p mem
  simp only [isGrounded, h, Bool.not_true, Bool.false_or, Bool.and_eq_true] at hgrounded
  obtain ⟨s, hs, hinner⟩ := (Option.any_eq_true _ _).1 hgrounded.2
  refine ⟨?_, fun s' hs' => ?_⟩
  · intro hnil
    rw [hnil] at hs
    cases hs
  · rw [Option.mem_def, hs] at hs'
    cases hs'
    exact hinner

/-- A derivation starts at its first token, unless its first symbol may derive nothing. -/
theorem Derives.starts {rhs : List Symbol} {values : Symbol.Values rhs} {start : Loc}
    {tokens : List Token} (h : Derives rhs values start tokens)
    (hinner : ∀ s ∈ rhs.head?, s.isInner = true) :
    start = startOf tokens ∧ (rhs ≠ [] → tokens ≠ []) := by
  induction h with
  | nil => exact ⟨rfl, nofun⟩
  | token => exact ⟨rfl, fun _ => List.cons_ne_nil _ _⟩
  | @node p rest inner values start start' tokens tokens' mem below later ihbelow ihlater =>
    obtain ⟨hrhs, hfirst⟩ := Production.isInner_of_mem mem (hinner _ rfl)
    obtain ⟨hstart, hne⟩ := ihbelow hfirst
    rw [hstart, startOf_append (hne hrhs)]
    exact ⟨rfl, fun _ => List.append_ne_nil_of_left_ne_nil (hne hrhs) _⟩

theorem Production.literal_eq_ok {value : Token → Decoded Constant} {token : Token} {c : Constant}
    (h : value token = .ok c) : literal value token = .ok (.literal token.loc c) := by
  rw [literal, h]
  rfl

theorem Node.withSuffixes_snoc (t : Node) (ss : List TypeSuffix) (s : TypeSuffix) :
    t.withSuffixes (ss ++ [s]) = (t.withSuffixes ss).withSuffix s := by
  rw [withSuffixes, withSuffixes, List.foldl_append]
  rfl

/-! ## Rows of symbols -/

/-- A row of tokens is derived from a row of symbols. -/
def Spells (rhs : List Symbol) (values : Symbol.Values rhs) (tokens : List Token) : Prop :=
  Derives rhs values (startOf tokens) tokens

/-- A row of tokens is derived from a nonterminal, with a value. -/
def Nonterminal.Derived (n : Nonterminal) (tokens : List Token) (v : n.Value) : Prop :=
  Spells [.nonterminal n] (.ok v, ()) tokens

namespace Spells

variable {rest : List Symbol} {values : Symbol.Values rest} {ts us : List Token}

theorem nil : Spells [] () [] := Derives.nil

theorem token {t : Terminal} {token : Token} (h : token.terminal = t)
    (later : Spells rest values ts) : Spells (.terminal t :: rest) (token, values) (token :: ts) :=
  Derives.token token h later

theorem single {t : Terminal} {token : Token} (h : token.terminal = t) :
    Spells [.terminal t] (token, ()) [token] := .token h .nil

end Spells

namespace Nonterminal

variable {ts us : List Token}

namespace Derived

theorem ne_nil {n : Nonterminal} {v : n.Value} (h : n.Derived ts v) (hn : n.isInner = true) :
    ts ≠ [] := (Derives.starts h fun _ hs => Option.some.inj hs ▸ hn).2 (List.cons_ne_nil _ _)

/-- A nonterminal before other symbols. -/
theorem before {n : Nonterminal} {v : n.Value} {rest : List Symbol} {values : Symbol.Values rest}
    (h : n.Derived ts v) (hn : n.isInner = true) (later : Spells rest values us) :
    Spells (.nonterminal n :: rest) (.ok v, values) (ts ++ us) := by
  rw [Spells, startOf_append (h.ne_nil hn)]
  exact Derives.cons h later

/-- A nonterminal is derived by one of its productions. -/
theorem node {p : Production} (mem : p ∈ Production.all) {inner : Symbol.Values p.rhs}
    (below : Spells p.rhs inner ts) {v : p.lhs.Value}
    (hv : p.build (startOf ts) inner = .ok v) : p.lhs.Derived ts v := by
  have h := Derives.single_node mem below
  rw [hv] at h
  exact h

end Derived

/-! ## Lists -/

/-- How the productions put lists together: the items behind the first one come from the left. -/
structure Lists (Item : List Token → Node → Prop) (List' More : List Token → List Node → Prop) :
    Prop where
  one {ts : List Token} {n : Node} : Item ts n → List' ts [n]
  cons {ts us : List Token} {n : Node} {ns : List Node} : Item ts n → More us ns →
    List' (ts ++ us) (n :: ns)
  first {comma : Token} {ts : List Token} {n : Node} : comma.terminal = .mark .comma → Item ts n →
    More (comma :: ts) [n]
  snoc {comma : Token} {ts us : List Token} {n : Node} {ns : List Node} : More ts ns →
    comma.terminal = .mark .comma → Item us n → More (ts ++ comma :: us) (ns ++ [n])

namespace Lists

variable {Item : List Token → Node → Prop} {List' More : List Token → List Node → Prop}
  {ps : List (List Token × Node)}

theorem tail (h : Lists Item List' More) (hps : ∀ p ∈ ps, Item p.1 p.2) {ns : List Node}
    (hts : More ts ns) (htail : Tail (ps.map (·.1)) us) : More (ts ++ us) (ns ++ ps.map (·.2)) := by
  induction ps generalizing ts us ns with
  | nil =>
    cases htail
    simpa using hts
  | cons p ps ih =>
    obtain ⟨hp, hps⟩ := List.forall_mem_cons.1 hps
    cases htail with
    | cons hcomma hlater =>
      have := ih hps (h.snoc hts hcomma hp) hlater
      simpa using this

/-- Items with commas between them are a list. -/
theorem row (h : Lists Item List' More) (hps : ∀ p ∈ ps, Item p.1 p.2)
    (hrow : Row (ps.map (·.1)) ts) : ps = [] ∧ ts = [] ∨ List' ts (ps.map (·.2)) := by
  match ps, hrow with
  | [], .nothing => exact .inl ⟨rfl, rfl⟩
  | p :: ps, .items htail =>
    obtain ⟨hp, hps⟩ := List.forall_mem_cons.1 hps
    refine .inr ?_
    match ps, htail with
    | [], .nil =>
      rw [List.append_nil]
      exact h.one hp
    | q :: ps, .cons hcomma hlater =>
      obtain ⟨hq, hps⟩ := List.forall_mem_cons.1 hps
      exact h.cons hp (h.tail hps (h.first hcomma hq) hlater)

end Lists

theorem lists_params : Lists (Derived .param) (Derived .params) (Derived .moreParams) where
  one h := .node (Production.mem_functions (k := 4) rfl) h rfl
  cons h h' := .node (Production.mem_functions (k := 5) rfl) (h.before rfl h') rfl
  first hcomma h := .node (Production.mem_functions (k := 6) rfl) (.token hcomma h) rfl
  snoc h hcomma h' := .node (Production.mem_functions (k := 7) rfl)
    (h.before rfl (.token hcomma h')) rfl

theorem lists_args : Lists (Derived .expr) (Derived .args) (Derived .moreArgs) where
  one h := .node (Production.mem_arguments (k := 0) rfl) h rfl
  cons h h' := .node (Production.mem_arguments (k := 1) rfl) (h.before rfl h') rfl
  first hcomma h := .node (Production.mem_arguments (k := 2) rfl) (.token hcomma h) rfl
  snoc h hcomma h' := .node (Production.mem_arguments (k := 3) rfl)
    (h.before rfl (.token hcomma h')) rfl

theorem lists_templateArgs :
    Lists (Derived .templateArg) (Derived .templateArgs) (Derived .moreTemplateArgs) where
  one h := .node (Production.mem_arguments (k := 4) rfl) h rfl
  cons h h' := .node (Production.mem_arguments (k := 5) rfl) (h.before rfl h') rfl
  first hcomma h := .node (Production.mem_arguments (k := 6) rfl) (.token hcomma h) rfl
  snoc h hcomma h' := .node (Production.mem_arguments (k := 7) rfl)
    (h.before rfl (.token hcomma h')) rfl

/-! ## Names and types -/

theorem derived_qualifiedName {t : Text} (h : QualifiedName ts t) :
    Derived .qualifiedName ts t := by
  have hsplit : ∃ token : Token, token.terminal = .name ∧
      (ts = [token] ∧ t = token.text ∨ ∃ us more, ts = token :: us ∧ t = token.text ++ more ∧
        Derived .moreNames us more) := by
    induction h with
    | @name token h => exact ⟨token, h, .inl ⟨rfl, rfl⟩⟩
    | @dot _ _ dot last _ hdot hlast ih =>
      obtain ⟨token, htoken, ⟨rfl, rfl⟩ | ⟨us, more, rfl, rfl, hmore⟩⟩ := ih
      · refine ⟨token, htoken, .inr ⟨[dot, last], '.' :: last.text, rfl, rfl, ?_⟩⟩
        exact .node (Production.mem_types (k := 27) rfl) (.token hdot (.single hlast)) rfl
      · refine ⟨token, htoken, .inr ⟨us ++ [dot, last], more ++ ↑ '.' :: last.text, rfl, ?_, ?_⟩⟩
        · exact List.append_assoc ..
        · exact .node (Production.mem_types (k := 28) rfl)
            (hmore.before rfl (.token hdot (.single hlast))) rfl
  obtain ⟨token, htoken, ⟨rfl, rfl⟩ | ⟨us, more, rfl, rfl, hmore⟩⟩ := hsplit
  · exact .node (Production.mem_types (k := 25) rfl) (.single htoken) rfl
  · exact .node (Production.mem_types (k := 26) rfl) (.token htoken hmore) rfl

/-- A type before its suffixes. -/
def DerivedBase : (reserved : Bool) → List Token → Node → Prop
  | true, ts, b => Derived .builtinType ts b ∨ Derived .qualifiedType ts b
  | false, ts, b => Derived .typeBase ts b

/-- A type with the suffixes behind it. -/
def Suffixed (reserved : Bool) (ts : List Token) (t : Node) : Prop :=
  ∃ us b, DerivedBase reserved us b ∧ (ts = us ∧ t = b ∨
    ∃ vs ss, ts = us ++ vs ∧ t = b.withSuffixes ss ∧ Derived .typeSuffixes vs ss)

namespace Suffixed

variable {reserved : Bool} {t b : Node} {suffix : TypeSuffix}

theorem of_reserved (h : DerivedBase true ts b) : Suffixed reserved ts b := by
  cases reserved with
  | true => exact ⟨ts, b, h, .inl ⟨rfl, rfl⟩⟩
  | false =>
    refine ⟨ts, b, ?_, .inl ⟨rfl, rfl⟩⟩
    rcases h with h | h
    · exact .node (Production.mem_types (k := 6) rfl) h rfl
    · exact .node (Production.mem_types (k := 7) rfl) h rfl

theorem snoc (h : Suffixed reserved ts t) (hsuffix : Derived .typeSuffix us suffix) :
    Suffixed reserved (ts ++ us) (t.withSuffix suffix) := by
  obtain ⟨base, b, hbase, ⟨rfl, rfl⟩ | ⟨vs, ss, rfl, rfl, hss⟩⟩ := h
  · refine ⟨ts, t, hbase, .inr ⟨us, [suffix], rfl, rfl, ?_⟩⟩
    exact .node (Production.mem_types (k := 29) rfl) hsuffix rfl
  · refine ⟨base, b, hbase, .inr ⟨vs ++ us, ss ++ [suffix], List.append_assoc .., ?_, ?_⟩⟩
    · exact (b.withSuffixes_snoc ss suffix).symm
    · exact .node (Production.mem_types (k := 30) rfl) (hss.before rfl hsuffix) rfl

theorem derived (h : Suffixed false ts t) : Derived .type ts t := by
  obtain ⟨us, b, hbase, ⟨rfl, rfl⟩ | ⟨vs, ss, rfl, rfl, hss⟩⟩ := h
  · exact .node (Production.mem_types (k := 4) rfl) hbase rfl
  · exact .node (Production.mem_types (k := 5) rfl) (Derived.before hbase rfl hss) rfl

theorem derived_typeOnly (h : Suffixed true ts t) :
    Derived .typeOnly ts (.typeArg (startOf ts) t) := by
  obtain ⟨us, b, hbase | hbase, ⟨rfl, rfl⟩ | ⟨vs, ss, rfl, rfl, hss⟩⟩ := h
  · exact .node (Production.mem_types (k := 0) rfl) hbase rfl
  · exact .node (Production.mem_types (k := 1) rfl) (hbase.before rfl hss) rfl
  · exact .node (Production.mem_types (k := 2) rfl) hbase rfl
  · exact .node (Production.mem_types (k := 3) rfl) (hbase.before rfl hss) rfl

end Suffixed

end Nonterminal

/-! ## Phrases -/

open Nonterminal

/-- What the tokens of a phrase are derived from. -/
def Category.Derived : Category → List Token → Node → Prop
  | statement => Nonterminal.statement.Derived
  | block => Nonterminal.block.Derived
  | param => Nonterminal.param.Derived
  | ascription => fun ts t => ts = [] ∧ t = .missing ∨ ∃ colon us, ts = colon :: us ∧
    colon.terminal = .mark .colon ∧ Nonterminal.type.Derived us t
  | default => fun ts e => ts = [] ∧ e = .missing ∨ ∃ equal us, ts = equal :: us ∧
    equal.terminal = .mark .equal ∧ Nonterminal.expr.Derived us e
  | result => fun ts e => ts = [] ∧ e = .missing ∨ Nonterminal.expr.Derived ts e
  | disjunction => Nonterminal.disjunction.Derived
  | conjunction => Nonterminal.conjunction.Derived
  | comparison => Nonterminal.comparison.Derived
  | sum => Nonterminal.sum.Derived
  | term => Nonterminal.term.Derived
  | unary => Nonterminal.unary.Derived
  | suffixed => Nonterminal.suffixed.Derived
  | primary => Nonterminal.primary.Derived
  | templateArg => Nonterminal.templateArg.Derived
  | type reserved => Suffixed reserved

section Phrases

variable {ts us row : List Token} {e : Node} {as ss : List (List Token × Node)}

theorem Category.Derived.expr (h : Category.Derived .expr ts e) : Nonterminal.expr.Derived ts e :=
  .node (Production.mem_operators (k := 0) rfl) h rfl

/-- Statements one behind the other. -/
theorem derived_statements (h : ∀ s ∈ ss, Nonterminal.statement.Derived s.1 s.2) :
    ss = [] ∨ Nonterminal.statements.Derived (ss.map (·.1)).flatten (ss.map (·.2)) := by
  have hmore {ts : List Token} {ns : List Node} (hts : Nonterminal.statements.Derived ts ns) :
      ∀ ss : List (List Token × Node), (∀ s ∈ ss, Nonterminal.statement.Derived s.1 s.2) →
        Nonterminal.statements.Derived (ts ++ (ss.map (·.1)).flatten) (ns ++ ss.map (·.2)) := by
    -- The list is left-recursive in the grammar: each statement is put behind those before it.
    intro ss h
    induction ss generalizing ts ns with
    | nil => simpa using hts
    | cons s ss ih =>
      obtain ⟨hs, hss⟩ := List.forall_mem_cons.1 h
      have hsnoc : Nonterminal.statements.Derived (ts ++ s.1) (ns ++ [s.2]) :=
        .node (Production.mem_statements (k := 3) rfl) (hts.before rfl hs) rfl
      have := ih hsnoc hss
      simpa using this
  match ss with
  | [] => exact .inl rfl
  | s :: ss =>
    obtain ⟨hs, hss⟩ := List.forall_mem_cons.1 h
    have hone : Nonterminal.statements.Derived s.1 [s.2] :=
      .node (Production.mem_statements (k := 2) rfl) hs rfl
    exact .inr (hmore hone ss hss)

/-- The tokens of a phrase are derived. -/
theorem Phrase.derived {c : Category} (h : Phrase c ts e) : c.Derived ts e := by
  -- Each constructor is one production, or two where a part of it may be missing. A tree that
  -- begins with another one has that one's place, which `startOf_append` moves to the front.
  induction h with
  | declare hword hident _ hequal _ hsemicolon iht ihe =>
    have hvalue := Spells.token hequal (ihe.expr.before rfl (.single hsemicolon))
    suffices h : Nonterminal.declaration.Derived _ _ from
      .node (Production.mem_statements (k := 4) rfl) h rfl
    rcases iht with ⟨rfl, rfl⟩ | ⟨colon, ts, rfl, hcolon, ht⟩
    · exact Derived.node (Production.mem_statements (k := 9) rfl)
        (.token hword (.token hident hvalue)) rfl
    · exact Derived.node (Production.mem_statements (k := 10) rfl)
        (.token hword (.token hident (.token hcolon (ht.before rfl hvalue)))) rfl
  | @function _ _ _ _ ps row _ _ _ _ hword hident hlparen _ hrow hrparen _ _ ihps iht ihbody =>
    suffices h : Nonterminal.function.Derived _ _ from
      .node (Production.mem_statements (k := 5) rfl) h rfl
    rcases lists_params.row ihps hrow with ⟨rfl, rfl⟩ | hparams
    · rcases iht with ⟨rfl, rfl⟩ | ⟨colon, ts, rfl, hcolon, ht⟩
      · exact Derived.node (Production.mem_functions (k := 0) rfl)
          (.token hword (.token hident (.token hlparen (.token hrparen ihbody)))) rfl
      · exact Derived.node (Production.mem_functions (k := 1) rfl)
          (.token hword (.token hident (.token hlparen (.token hrparen (.token hcolon
            (ht.before rfl ihbody)))))) rfl
    · rcases iht with ⟨rfl, rfl⟩ | ⟨colon, ts, rfl, hcolon, ht⟩
      · exact Derived.node (Production.mem_functions (k := 2) rfl)
          (.token hword (.token hident (.token hlparen (hparams.before rfl
            (.token hrparen ihbody))))) rfl
      · exact Derived.node (Production.mem_functions (k := 3) rfl)
          (.token hword (.token hident (.token hlparen (hparams.before rfl (.token hrparen
            (.token hcolon (ht.before rfl ihbody))))))) rfl
  | giveBack hword _ hsemicolon ih =>
    suffices h : Nonterminal.giveBack.Derived _ _ from
      .node (Production.mem_statements (k := 6) rfl) h rfl
    rcases ih with ⟨rfl, rfl⟩ | ih
    · exact Derived.node (Production.mem_statements (k := 11) rfl)
        (.token hword (.single hsemicolon)) rfl
    · exact Derived.node (Production.mem_statements (k := 12) rfl)
        (.token hword (ih.before rfl (.single hsemicolon))) rfl
  | evaluate _ hsemicolon ih =>
    rw [← startOf_append (ih.ne_nil rfl) [_]]
    suffices h : Nonterminal.evaluation.Derived _ _ from
      .node (Production.mem_statements (k := 7) rfl) h rfl
    exact .node (Production.mem_statements (k := 13) rfl) (ih.expr.before rfl (.single hsemicolon))
      rfl
  | nested _ ih => exact .node (Production.mem_statements (k := 8) rfl) ih rfl
  | block hlbrace _ hrbrace ih =>
    rcases derived_statements ih with rfl | hss
    · exact .node (Production.mem_statements (k := 14) rfl) (.token hlbrace (.single hrbrace)) rfl
    · exact .node (Production.mem_statements (k := 15) rfl)
        (.token hlbrace (hss.before rfl (.single hrbrace))) rfl
  | param hident hcolon _ _ iht ihe =>
    rcases ihe with ⟨rfl, rfl⟩ | ⟨equal, us, rfl, hequal, he⟩
    · rw [List.append_nil]
      exact .node (Production.mem_functions (k := 8) rfl)
        (.token hident (.token hcolon iht.derived)) rfl
    · exact .node (Production.mem_functions (k := 9) rfl)
        (.token hident (.token hcolon (iht.derived.before rfl (.token hequal he)))) rfl
  -- A part that is missing has no production: the one around it is written without it.
  | noAscription | noDefault => exact .inl ⟨rfl, rfl⟩
  | noResult => exact .inl ⟨rfl, rfl⟩
  | ascription hcolon _ ih => exact .inr ⟨_, _, rfl, hcolon, ih.derived⟩
  | default hequal _ ih => exact .inr ⟨_, _, rfl, hequal, ih.expr⟩
  | result _ ih => exact .inr ih.expr
  -- An operator level that has no operator is the next one.
  | ofConjunction _ ih => exact .node (Production.mem_operators (k := 1) rfl) ih rfl
  | ofComparison _ ih => exact .node (Production.mem_operators (k := 3) rfl) ih rfl
  | ofSum _ ih => exact .node (Production.mem_operators (k := 5) rfl) ih rfl
  | ofTerm _ ih => exact .node (Production.mem_operators (k := 12) rfl) ih rfl
  | ofUnary _ ih => exact .node (Production.mem_operators (k := 16) rfl) ih rfl
  | ofSuffixed _ ih => exact .node (Production.mem_operators (k := 20) rfl) ih rfl
  | ofPrimary _ ih => exact .node (Production.mem_operands (k := 0) rfl) ih rfl
  | or _ hmark _ ihl ihr =>
    rw [← startOf_append (ihl.ne_nil rfl)]
    exact .node (Production.mem_operators (k := 2) rfl) (ihl.before rfl (.token hmark ihr)) rfl
  | and _ hmark _ ihl ihr =>
    rw [← startOf_append (ihl.ne_nil rfl)]
    exact .node (Production.mem_operators (k := 4) rfl) (ihl.before rfl (.token hmark ihr)) rfl
  | comparison hop _ hmark _ ihl ihr =>
    rw [← startOf_append (ihl.ne_nil rfl)]
    exact .node (Production.mem_comparisons hop) (ihl.before rfl (.token hmark ihr)) rfl
  | sum hop _ hmark _ ihl ihr =>
    rw [← startOf_append (ihl.ne_nil rfl)]
    exact .node (Production.mem_sums hop) (ihl.before rfl (.token hmark ihr)) rfl
  | product hop _ hmark _ ihl ihr =>
    rw [← startOf_append (ihl.ne_nil rfl)]
    exact .node (Production.mem_products hop) (ihl.before rfl (.token hmark ihr)) rfl
  | unary hop hmark _ ih => exact .node (Production.mem_unaries hop) (.token hmark ih) rfl
  | call _ hlparen _ hrow hrparen ih ihas =>
    rcases lists_args.row (fun a ha => (ihas a ha).expr) hrow with ⟨rfl, rfl⟩ | hargs
    · rw [← startOf_append (ih.ne_nil rfl)]
      exact .node (Production.mem_operands (k := 1) rfl)
        (ih.before rfl (.token hlparen (.single hrparen))) rfl
    · rw [← startOf_append (ih.ne_nil rfl)]
      exact .node (Production.mem_operands (k := 2) rfl)
        (ih.before rfl (.token hlparen (hargs.before rfl (.single hrparen)))) rfl
  | member _ hdot hident ih =>
    rw [← startOf_append (ih.ne_nil rfl)]
    exact .node (Production.mem_operands (k := 3) rfl)
      (ih.before rfl (.token hdot (.single hident))) rfl
  | index _ hlbracket _ hrbracket ih ihi =>
    rw [← startOf_append (ih.ne_nil rfl)]
    exact .node (Production.mem_operands (k := 4) rfl)
      (ih.before rfl (.token hlbracket (ihi.expr.before rfl (.single hrbracket)))) rfl
  | instantiate _ hbang hlparen _ hrow hrparen ih ihas =>
    rcases lists_templateArgs.row ihas hrow with ⟨rfl, rfl⟩ | hargs
    · rw [← startOf_append (ih.ne_nil rfl)]
      exact .node (Production.mem_operands (k := 5) rfl)
        (ih.before rfl (.token hbang (.token hlparen (.single hrparen)))) rfl
    · rw [← startOf_append (ih.ne_nil rfl)]
      exact .node (Production.mem_operands (k := 6) rfl)
        (ih.before rfl (.token hbang (.token hlparen (hargs.before rfl (.single hrparen))))) rfl
  | name h => exact .node (Production.mem_operands (k := 7) rfl) (.single h) rfl
  | integer h hc =>
    exact .node (Production.mem_operands (k := 8) rfl) (.single h) (Production.literal_eq_ok hc)
  | fraction h hc =>
    exact .node (Production.mem_operands (k := 9) rfl) (.single h) (Production.literal_eq_ok hc)
  | string h hc =>
    exact .node (Production.mem_operands (k := 10) rfl) (.single h) (Production.literal_eq_ok hc)
  | rawString h hc =>
    exact .node (Production.mem_operands (k := 11) rfl) (.single h) (Production.literal_eq_ok hc)
  | character h hc =>
    exact .node (Production.mem_operands (k := 12) rfl) (.single h) (Production.literal_eq_ok hc)
  | interpolation h hi =>
    exact .node (Production.mem_operands (k := 13) rfl) (.single h)
      (congrArg (Except.map Node.interpolation) hi)
  | isTrue h => exact .node (Production.mem_operands (k := 14) rfl) (.single h) rfl
  | isFalse h => exact .node (Production.mem_operands (k := 15) rfl) (.single h) rfl
  | null h => exact .node (Production.mem_operands (k := 16) rfl) (.single h) rfl
  | mixin hword hlparen _ hrow hrparen ihas =>
    rcases lists_args.row (fun a ha => (ihas a ha).expr) hrow with ⟨rfl, rfl⟩ | hargs
    · exact .node (Production.mem_operands (k := 17) rfl)
        (.token hword (.token hlparen (.single hrparen))) rfl
    · exact .node (Production.mem_operands (k := 18) rfl)
        (.token hword (.token hlparen (hargs.before rfl (.single hrparen)))) rfl
  | parentheses hlparen _ hrparen ih =>
    exact .node (Production.mem_operands (k := 19) rfl)
      (.token hlparen (ih.expr.before rfl (.single hrparen))) rfl
  | exprArg _ ih => exact .node (Production.mem_arguments (k := 8) rfl) ih.expr rfl
  | typeArg _ ih => exact .node (Production.mem_arguments (k := 9) rfl) ih.derived_typeOnly rfl
  | @builtin _ _ b h =>
    exact .of_reserved (.inl (.node (Production.mem_builtins b) (.single h) rfl))
  | @qualified _ _ _ _ q _ _ hword hlparen _ hrparen ih =>
    exact .of_reserved (.inr (.node (Production.mem_qualifiers q)
      (.token hword (.token hlparen (ih.derived.before rfl (.single hrparen)))) rfl))
  | named h =>
    have hbase : Nonterminal.typeBase.Derived _ _ :=
      .node (Production.mem_types (k := 8) rfl) (derived_qualifiedName h) rfl
    exact ⟨_, _, hbase, .inl ⟨rfl, rfl⟩⟩
  -- A type is a base with its suffixes, and this is the base of a list that is still empty.
  | template h hbang hlparen _ hrow hrparen ihas =>
    have hname := derived_qualifiedName h
    refine ⟨_, _, ?_, .inl ⟨rfl, rfl⟩⟩
    suffices h : Nonterminal.typeBase.Derived _ _ from h
    rcases lists_templateArgs.row ihas hrow with ⟨rfl, rfl⟩ | hargs
    · rw [← startOf_append (hname.ne_nil rfl)]
      exact .node (Production.mem_types (k := 9) rfl)
        (hname.before rfl (.token hbang (.token hlparen (.single hrparen)))) rfl
    · rw [← startOf_append (hname.ne_nil rfl)]
      exact .node (Production.mem_types (k := 10) rfl)
        (hname.before rfl (.token hbang (.token hlparen (hargs.before rfl (.single hrparen))))) rfl
  | pointer _ hstar ih =>
    exact ih.snoc (.node (Production.mem_types (k := 31) rfl) (.single hstar) rfl)
  | slice _ hlbracket hrbracket ih =>
    exact ih.snoc (.node (Production.mem_types (k := 32) rfl)
      (.token hlbracket (.single hrbracket)) rfl)
  | array _ hlbracket _ hrbracket ih ihsize =>
    exact ih.snoc (.node (Production.mem_types (k := 33) rfl)
      (.token hlbracket (ihsize.expr.before rfl (.single hrbracket))) rfl)

end Phrases

/-- The tokens of a whole text are derived. -/
theorem Goal.IsTree.derives {goal : Goal} {tokens : List Token} {v : goal.body.Value}
    (h : goal.IsTree tokens v) :
    ∃ start, Derives [.nonterminal goal.body] (.ok v, ()) start tokens := by
  cases goal with
  | program =>
    obtain ⟨ss, rfl, rfl, hss⟩ := h
    refine ⟨startOf (ss.map (·.1)).flatten, ?_⟩
    rcases derived_statements fun s hs => (hss s hs).derived with rfl | hstatements
    · exact Nonterminal.Derived.node (Production.mem_statements (k := 0) rfl) .nil rfl
    · exact Nonterminal.Derived.node (Production.mem_statements (k := 1) rfl) hstatements rfl
  | expr =>
    have h : Phrase .expr tokens v := h
    exact ⟨_, h.derived.expr⟩
  | type =>
    have h : Phrase (.type false) tokens v := h
    exact ⟨_, h.derived.derived⟩

end Splice
