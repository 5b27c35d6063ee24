import Mathlib.Data.List.Chain
import Splice.Proofs.Body.Enclosed
import Splice.Proofs.Phrase.Basic

/-!
# The surface of a phrase

What stands in parentheses does not matter to the tokens around it. The surface of a row of tokens
is what is left when everything between parentheses is taken out. On the surface of an expression
brackets are never empty, and a star has operands on both sides.

* `surface`: the tokens outside parentheses, and the outermost parentheses.
* `Phrase.balanced`: the parentheses of a phrase come in pairs.
* `Phrase.exprSurface`: the surface of an expression.
-/

namespace Splice

/-! ## Surfaces -/

/-- The tokens that are not deeper than `depth` parentheses inside what the row stands in. -/
def surface : (depth : Nat) → List Token → List Token
  | _, [] => []
  | depth, token :: later =>
    (if depth = 0 ∨ token.nest depth = 0 then [token] else []) ++
      surface (token.nest depth) later

/-- The parentheses in the row come in pairs, so it neither opens nor closes what is around it. -/
structure Balanced (ts : List Token) : Prop where
  append : ∀ depth us, surface depth (ts ++ us) = surface depth ts ++ surface depth us
  hidden : ∀ depth, surface (depth + 1) ts = []

/-- A token that is no parenthesis. -/
def Token.IsPlain (token : Token) : Prop :=
  token.terminal ≠ .mark .lparen ∧ token.terminal ≠ .mark .rparen

theorem Token.IsPlain.nest_eq {token : Token} (h : token.IsPlain) (depth : Nat) :
    token.nest depth = depth := by
  unfold Token.nest
  split
  · next heq => exact absurd heq h.1
  · next heq => exact absurd heq h.2
  · rfl

theorem Token.isPlain_of_eq {token : Token} {t : Terminal} (h : token.terminal = t)
    (hl : t ≠ .mark .lparen := by rintro ⟨⟩) (hr : t ≠ .mark .rparen := by rintro ⟨⟩) :
    token.IsPlain := by
  subst h
  exact ⟨hl, hr⟩

theorem Token.isPlain_of_mem {token : Token} {m : Mark} {α : Type} {op : α}
    {ops : List (Mark × α)} (hops : ∀ p ∈ ops, p.1 ≠ .lparen ∧ p.1 ≠ .rparen)
    (hop : (m, op) ∈ ops) (h : token.terminal = .mark m) : token.IsPlain := by
  obtain ⟨hl, hr⟩ := hops _ hop
  exact isPlain_of_eq h (fun heq => hl (Terminal.mark.inj heq))
    fun heq => hr (Terminal.mark.inj heq)

namespace Balanced

variable {ts us : List Token} {token lparen rparen : Token}

theorem nil : Balanced [] := ⟨fun _ _ => rfl, fun _ => rfl⟩

theorem join (h : Balanced ts) (h' : Balanced us) : Balanced (ts ++ us) := by
  refine ⟨fun depth vs => ?_, fun depth => ?_⟩
  · rw [List.append_assoc, h.append, h'.append, h.append, List.append_assoc]
  · rw [h.append, h.hidden, h'.hidden, List.append_nil]

theorem cons (h : token.IsPlain) (hts : Balanced ts) : Balanced (token :: ts) := by
  refine ⟨fun depth vs => ?_, fun depth => ?_⟩
  · rw [List.cons_append, surface, surface, h.nest_eq, hts.append, List.append_assoc]
  · rw [surface, h.nest_eq, if_neg (by omega), hts.hidden]
    rfl

theorem single (h : token.IsPlain) : Balanced [token] := cons h nil

/-- A row in parentheses. -/
theorem enclosed (hlparen : lparen.terminal = .mark .lparen) (h : Balanced ts)
    (hrparen : rparen.terminal = .mark .rparen) : Balanced (lparen :: (ts ++ [rparen])) := by
  have hopen (depth : Nat) : lparen.nest depth = depth + 1 := by rw [Token.nest_eq, hlparen]; rfl
  have hclose (depth : Nat) : rparen.nest (depth + 1) = depth := by rw [Token.nest_eq, hrparen]; rfl
  refine ⟨fun depth vs => ?_, fun depth => ?_⟩
  · rw [List.cons_append, List.append_assoc, surface, surface, hopen, h.append, h.append,
      List.singleton_append, surface, surface, hclose, surface]
    simp
  · rw [surface, hopen, h.append, h.hidden, surface, hclose, surface]
    simp

theorem flatten {items : List (List Token)} (h : ∀ item ∈ items, Balanced item) :
    Balanced items.flatten := by
  induction items with
  | nil => exact nil
  | cons item items ih =>
    obtain ⟨hitem, hlater⟩ := List.forall_mem_cons.1 h
    exact hitem.join (ih hlater)

theorem tail {items : List (List Token)} (h : Tail items ts)
    (hitems : ∀ item ∈ items, Balanced item) : Balanced ts := by
  induction h with
  | nil => exact nil
  | cons hcomma _ ih =>
    obtain ⟨hitem, hlater⟩ := List.forall_mem_cons.1 hitems
    exact cons (Token.isPlain_of_eq hcomma) (hitem.join (ih hlater))

theorem row {items : List (List Token)} (h : Row items ts)
    (hitems : ∀ item ∈ items, Balanced item) : Balanced ts := by
  cases h with
  | nothing => exact nil
  | items h =>
    obtain ⟨hitem, hlater⟩ := List.forall_mem_cons.1 hitems
    exact hitem.join (tail h hlater)

theorem qualifiedName {ident : Text} (h : QualifiedName ts ident) : Balanced ts := by
  induction h with
  | name h => exact single (Token.isPlain_of_eq h)
  | dot _ hdot htoken ih =>
    exact ih.join (cons (Token.isPlain_of_eq hdot)
      (single (Token.isPlain_of_eq htoken)))

end Balanced

/-- The parentheses of a phrase come in pairs. -/
theorem Phrase.balanced {c : Category} {ts : List Token} {n : Node} (h : Phrase c ts n) :
    Balanced ts := by
  have rows {ps : List (List Token × Node)} (hps : ∀ p ∈ ps, Balanced p.1) :
      ∀ item ∈ ps.map (·.1), Balanced item := List.forall_mem_map.2 hps
  -- Only lists in parentheses, and groups, have parentheses of their own, and these enclose a
  -- part.
  induction h with
  | name h | integer h | fraction h | string h | rawString h | character h | interpolation h
  | isTrue h | isFalse h | null h | builtin h =>
    exact .single (Token.isPlain_of_eq h)
  | noAscription | noDefault | noResult => exact .nil
  | nested _ ih | ofConjunction _ ih | ofComparison _ ih | ofSum _ ih | ofTerm _ ih | ofUnary _ ih
  | ofSuffixed _ ih | ofPrimary _ ih | exprArg _ ih | result _ ih | typeArg _ ih => exact ih
  | ascription h _ ih | default h _ ih => exact .cons (Token.isPlain_of_eq h) ih
  | named h => exact .qualifiedName h
  | declare hword hident _ hequal _ hsemicolon iht ihe =>
    refine .cons (Token.isPlain_of_eq hword) ?_
    refine .cons (Token.isPlain_of_eq hident) (iht.join ?_)
    refine .cons (Token.isPlain_of_eq hequal) (ihe.join ?_)
    exact .single (Token.isPlain_of_eq hsemicolon)
  | @function _ _ _ rparen _ _ _ _ _ _ hword hident hlparen _ hrow hrparen _ _ ihps iht ihbody =>
    refine .cons (Token.isPlain_of_eq hword) ?_
    refine .cons (Token.isPlain_of_eq hident) ?_
    have hparams := Balanced.enclosed hlparen (.row hrow (rows ihps)) hrparen
    simpa using hparams.join (iht.join ihbody)
  | giveBack hword _ hsemicolon ih =>
    refine .cons (Token.isPlain_of_eq hword) (ih.join ?_)
    exact .single (Token.isPlain_of_eq hsemicolon)
  | evaluate _ hsemicolon ih => exact ih.join (.single (Token.isPlain_of_eq hsemicolon))
  | block hlbrace _ hrbrace ih =>
    refine .cons (Token.isPlain_of_eq hlbrace) ((Balanced.flatten (rows ih)).join ?_)
    exact .single (Token.isPlain_of_eq hrbrace)
  | param hident hcolon _ _ iht ihe =>
    refine .cons (Token.isPlain_of_eq hident) ?_
    exact .cons (Token.isPlain_of_eq hcolon) (iht.join ihe)
  | or _ h _ ihl ihr | and _ h _ ihl ihr =>
    exact ihl.join (.cons (Token.isPlain_of_eq h) ihr)
  | comparison hop _ h _ ihl ihr | sum hop _ h _ ihl ihr | product hop _ h _ ihl ihr =>
    exact ihl.join (.cons (Token.isPlain_of_mem (by decide) hop h) ihr)
  | unary hop h _ ih => exact .cons (Token.isPlain_of_mem (by decide) hop h) ih
  | call _ hlparen _ hrow hrparen ih ihas =>
    exact ih.join (.enclosed hlparen (.row hrow (rows ihas)) hrparen)
  | member _ hdot hident ih =>
    refine ih.join (.cons (Token.isPlain_of_eq hdot) ?_)
    exact .single (Token.isPlain_of_eq hident)
  | index _ hlbracket _ hrbracket ih ihi | array _ hlbracket _ hrbracket ih ihi =>
    refine ih.join (.cons (Token.isPlain_of_eq hlbracket) (ihi.join ?_))
    exact .single (Token.isPlain_of_eq hrbracket)
  | instantiate _ hbang hlparen _ hrow hrparen ih ihas =>
    refine ih.join (.cons (Token.isPlain_of_eq hbang) ?_)
    exact .enclosed hlparen (.row hrow (rows ihas)) hrparen
  | mixin hword hlparen _ hrow hrparen ihas =>
    refine .cons (Token.isPlain_of_eq hword) ?_
    exact .enclosed hlparen (.row hrow (rows ihas)) hrparen
  | parentheses hlparen _ hrparen ih => exact .enclosed hlparen ih hrparen
  | qualified hword hlparen _ hrparen ih =>
    exact .cons (Token.isPlain_of_eq hword) (.enclosed hlparen ih hrparen)
  | template h hbang hlparen _ hrow hrparen ihas =>
    refine Balanced.join (.qualifiedName h) (.cons (Token.isPlain_of_eq hbang) ?_)
    exact .enclosed hlparen (.row hrow (rows ihas)) hrparen
  | pointer _ hstar ih => exact ih.join (.single (Token.isPlain_of_eq hstar))
  | slice _ hlbracket hrbracket ih =>
    refine ih.join (.cons (Token.isPlain_of_eq hlbracket) ?_)
    exact .single (Token.isPlain_of_eq hrbracket)

/-! ## The surface of an expression -/

/-- Whether an expression may begin with the terminal. -/
def Terminal.beginsExpr : Terminal → Bool
  | .mark .star | .mark .lbracket | .mark .rbracket | .keyword (.builtin _)
  | .keyword (.qualifier _) => false
  | _ => true

/-- Whether an expression may end with the terminal. -/
def Terminal.endsExpr : Terminal → Bool
  | .mark .star | .mark .lbracket => false
  | _ => true

/-- Neither is the first token a star before a suffix of a type, nor are both together empty
brackets. -/
def Token.Meets (a b : Token) : Prop :=
  ¬ (a.terminal = .mark .star ∧ (b.terminal = .mark .star ∨ b.terminal = .mark .lbracket)) ∧
    ¬ (a.terminal = .mark .lbracket ∧ b.terminal = .mark .rbracket)

theorem Token.Meets.of_ends {a b : Token} (h : a.terminal.endsExpr = true) : a.Meets b := by
  constructor
  · rintro ⟨ha, -⟩
    rw [ha] at h
    cases h
  · rintro ⟨ha, -⟩
    rw [ha] at h
    cases h

theorem Token.Meets.of_begins {a b : Token} (h : b.terminal.beginsExpr = true) : a.Meets b := by
  constructor
  · rintro ⟨-, hb | hb⟩ <;> rw [hb] at h <;> cases h
  · rintro ⟨-, hb⟩
    rw [hb] at h
    cases h

/-- What the surface of an expression is like. -/
structure ExprSurface (ts : List Token) : Prop where
  chain : ts.IsChain Token.Meets
  first : ∃ t, ts.head? = some t ∧ t.terminal.beginsExpr = true
  last : ∃ t, ts.getLast? = some t ∧ t.terminal.endsExpr = true

namespace ExprSurface

variable {ts us : List Token} {token : Token}

theorem single (hbegins : token.terminal.beginsExpr = true)
    (hends : token.terminal.endsExpr = true) : ExprSurface [token] :=
  ⟨.singleton token, ⟨token, rfl, hbegins⟩, ⟨token, rfl, hends⟩⟩

theorem cons (hbegins : token.terminal.beginsExpr = true) (h : ExprSurface ts) :
    ExprSurface (token :: ts) := by
  obtain ⟨first, hfirst, hbeginsFirst⟩ := h.first
  obtain ⟨last, hlast, hends⟩ := h.last
  refine ⟨List.isChain_cons.2 ⟨fun t ht => ?_, h.chain⟩, ⟨token, rfl, hbegins⟩, last, ?_, hends⟩
  · rw [hfirst] at ht
    cases ht
    exact .of_begins hbeginsFirst
  · rw [List.getLast?_cons, hlast]
    rfl

theorem snoc (h : ExprSurface ts) (hends : token.terminal.endsExpr = true) :
    ExprSurface (ts ++ [token]) := by
  obtain ⟨first, hfirst, hbegins⟩ := h.first
  obtain ⟨last, hlast, hendsLast⟩ := h.last
  refine ⟨List.isChain_append.2 ⟨h.chain, .singleton token, fun t ht u hu => ?_⟩,
    ⟨first, ?_, hbegins⟩, token, List.getLast?_concat .., hends⟩
  · rw [hlast] at ht
    cases ht
    exact .of_ends hendsLast
  · rw [List.head?_append, hfirst]
    rfl

/-- An operator, or an opening bracket, between two expressions. -/
theorem join (h : ExprSurface ts) (token : Token) (h' : ExprSurface us) :
    ExprSurface (ts ++ token :: us) := by
  obtain ⟨first, hfirst, hbegins⟩ := h.first
  obtain ⟨last, hlast, hends⟩ := h.last
  obtain ⟨first', hfirst', hbegins'⟩ := h'.first
  obtain ⟨last', hlast', hends'⟩ := h'.last
  refine ⟨List.isChain_append.2 ⟨h.chain, List.isChain_cons.2 ⟨fun t ht => ?_, h'.chain⟩,
    fun t ht u hu => ?_⟩, ⟨first, ?_, hbegins⟩, last', ?_, hends'⟩
  · rw [hfirst'] at ht
    cases ht
    exact .of_begins hbegins'
  · rw [hlast] at ht
    cases ht
    exact .of_ends hends
  · rw [List.head?_append, hfirst]
    rfl
  · rw [List.getLast?_append, List.getLast?_cons, hlast']
    rfl

end ExprSurface

theorem surface_single (token : Token) : surface 0 [token] = [token] := rfl

theorem surface_pair (a b : Token) (h : a.IsPlain) : surface 0 [a, b] = [a, b] := by
  rw [surface, h.nest_eq]
  rfl

theorem surface_cons {token : Token} (h : token.IsPlain) (ts : List Token) :
    surface 0 (token :: ts) = token :: surface 0 ts := by
  rw [surface, h.nest_eq]
  rfl

/-- Of a row in parentheses only the parentheses are seen. -/
theorem surface_enclosed {ts : List Token} {lparen rparen : Token}
    (hlparen : lparen.terminal = .mark .lparen) (h : Balanced ts)
    (hrparen : rparen.terminal = .mark .rparen) :
    surface 0 (lparen :: (ts ++ [rparen])) = [lparen, rparen] := by
  have hopen : lparen.nest 0 = 1 := by rw [Token.nest_eq, hlparen]; rfl
  have hclose : rparen.nest 1 = 0 := by rw [Token.nest_eq, hrparen]; rfl
  rw [surface, hopen, h.append, h.hidden, surface, hclose]
  rfl

/-- The categories of expressions. -/
def Category.isExpr : Category → Bool
  | .disjunction | .conjunction | .comparison | .sum | .term | .unary | .suffixed | .primary => true
  | _ => false

/-- On the surface of an expression brackets are never empty, and stars stand between operands. -/
theorem Phrase.exprSurface {c : Category} {ts : List Token} {e : Node} (h : Phrase c ts e)
    (hc : c.isExpr = true) : ExprSurface (surface 0 ts) := by
  have rows {c : Category} {ps : List (List Token × Node)} (hps : ∀ p ∈ ps, Phrase c p.1 p.2) :
      ∀ item ∈ ps.map (·.1), Balanced item := List.forall_mem_map.2 fun p hp => (hps p hp).balanced
  have terminal {token : Token} {t : Terminal} (h : token.terminal = t)
      (hbegins : t.beginsExpr = true) (hends : t.endsExpr = true) : ExprSurface [token] := by
    subst h
    exact .single hbegins hends
  have ends {token : Token} {t : Terminal} (h : token.terminal = t) (hends : t.endsExpr = true) :
      token.terminal.endsExpr = true := by
    subst h
    exact hends
  -- What a binary operator stands between is balanced, so the surfaces are joined at it.
  have operator {token : Token} {ts us : List Token} {c : Category} {l : Node}
      (hl : Phrase c ts l) (ihl : ExprSurface (surface 0 ts)) (h : token.IsPlain)
      (ihr : ExprSurface (surface 0 us)) : ExprSurface (surface 0 (ts ++ token :: us)) := by
    rw [hl.balanced.append, surface_cons h]
    exact ihl.join token ihr
  -- Of a phrase in parentheses the surface shows the parentheses alone, so the hypothesis for it
  -- is not needed.
  induction h with
  | name h | integer h | fraction h | string h | rawString h | character h | interpolation h
  | isTrue h | isFalse h | null h => exact terminal h rfl rfl
  | ofConjunction _ ih | ofComparison _ ih | ofSum _ ih | ofTerm _ ih | ofUnary _ ih
  | ofSuffixed _ ih | ofPrimary _ ih => exact ih rfl
  | or hl h _ ihl ihr | and hl h _ ihl ihr =>
    exact operator hl (ihl rfl) (Token.isPlain_of_eq h) (ihr rfl)
  | comparison hop hl h _ ihl ihr | sum hop hl h _ ihl ihr | product hop hl h _ ihl ihr =>
    exact operator hl (ihl rfl) (Token.isPlain_of_mem (by decide) hop h) (ihr rfl)
  | @unary mark m op ts e hop h _ ih =>
    have hbegins : ∀ p ∈ UnaryOp.marks, (Terminal.mark p.1).beginsExpr = true := by decide
    rw [surface_cons (Token.isPlain_of_mem (by decide) hop h)]
    exact .cons (by rw [h]; exact hbegins _ hop) (ih rfl)
  | @call lparen rparen ts row _ _ he hlparen has hrow hrparen ih =>
    rw [he.balanced.append, surface_enclosed hlparen (.row hrow (rows has)) hrparen]
    simpa using ((ih rfl).snoc (ends hlparen rfl)).snoc (ends hrparen rfl)
  | @member dot ident ts _ he hdot hident ih =>
    rw [he.balanced.append, surface_pair _ _ (Token.isPlain_of_eq hdot)]
    simpa using ((ih rfl).snoc (ends hdot rfl)).snoc (ends hident rfl)
  | @index lbracket rbracket ts us _ _ he hlbracket hi hrbracket ih ihi =>
    rw [he.balanced.append, surface_cons (Token.isPlain_of_eq hlbracket),
      hi.balanced.append, surface_single]
    simpa using ((ih rfl).join lbracket (ihi rfl)).snoc (ends hrbracket rfl)
  | @instantiate bang lparen rparen ts row _ _ he hbang hlparen has hrow hrparen ih =>
    rw [he.balanced.append, surface_cons (Token.isPlain_of_eq hbang),
      surface_enclosed hlparen (.row hrow (rows has)) hrparen]
    simpa using (((ih rfl).snoc (ends hbang rfl)).snoc (ends hlparen rfl)).snoc (ends hrparen rfl)
  | @mixin word lparen rparen row _ hword hlparen has hrow hrparen =>
    rw [surface_cons (Token.isPlain_of_eq hword),
      surface_enclosed hlparen (.row hrow (rows has)) hrparen]
    exact ((terminal hword rfl rfl).snoc (ends hlparen rfl)).snoc (ends hrparen rfl)
  | @parentheses lparen rparen ts _ hlparen he hrparen =>
    rw [surface_enclosed hlparen he.balanced hrparen]
    exact (terminal hlparen rfl rfl).snoc (ends hrparen rfl)
  | _ => cases hc

end Splice
