import Mathlib.Data.List.Chain
import Splice.Proofs.Body.Closing
import Splice.Proofs.Grammar.Parsing

/-!
# Texts of the host grammar in parentheses

Whatever the grammar derives has its parentheses in pairs, and nowhere a star behind a slash. So a
text that has a tree is closed by the parenthesis right behind it, unless its last lexeme is a
comment that goes on to the end of the line.

* `Derives.depthBehind_eq`: the parentheses among derived tokens are balanced.
* `Derives.keepsApart`: no star stands behind a slash among derived tokens.
* `Closing.distance_of_parse`: where the group of a text that has a tree ends.
-/

namespace Splice

/-! ## Balanced parentheses -/

/-- The depth behind a symbol. What a nonterminal derives is balanced. -/
def Symbol.nest (depth : Nat) : Symbol → Nat
  | .terminal (.mark .lparen) => depth + 1
  | .terminal (.mark .rparen) => depth - 1
  | _ => depth

/-- The depth behind a row of symbols, if none of them brings it to zero. -/
def depthBehindRow : (depth : Nat) → List Symbol → Option Nat
  | depth, [] => some depth
  | depth, s :: rest => if s.nest depth = 0 then none else depthBehindRow (s.nest depth) rest

theorem depthBehind_append (depth : Nat) (tokens tokens' : List Token) :
    depthBehind depth (tokens ++ tokens') =
      (depthBehind depth tokens).bind fun depth => depthBehind depth tokens' := by
  induction tokens generalizing depth with
  | nil => rfl
  | cons token tokens ih =>
    rw [List.cons_append, depthBehind, depthBehind]
    split
    next => rfl
    next => exact ih _

theorem Token.nest_eq (depth : Nat) (token : Token) :
    token.nest depth = Symbol.nest depth (.terminal token.terminal) := by
  unfold Token.nest
  cases token.terminal with
  | mark m => cases m <;> rfl
  | _ => rfl

@[simp] theorem Symbol.nest_nonterminal (depth : Nat) (n : Nonterminal) :
    Symbol.nest depth (.nonterminal n) = depth := rfl

theorem Symbol.nest_add {depth : Nat} (s : Symbol) (h : s.nest depth ≠ 0) (more : Nat) :
    s.nest (depth + more) = s.nest depth + more := by
  revert h
  unfold Symbol.nest
  split <;> omega

/-- A balanced row is balanced inside other parentheses too. -/
theorem depthBehindRow_add {rhs : List Symbol} {depth depth' : Nat}
    (h : depthBehindRow depth rhs = some depth') (more : Nat) :
    depthBehindRow (depth + more) rhs = some (depth' + more) := by
  induction rhs generalizing depth with
  | nil =>
    cases h
    rfl
  | cons s rest ih =>
    rw [depthBehindRow] at h
    split at h
    next => cases h
    next hne =>
      rw [depthBehindRow, s.nest_add hne, if_neg (by omega)]
      exact ih h

theorem Production.depthBehindRow_eq {p : Production} (h : p ∈ all) {depth : Nat}
    (hpos : 0 < depth) : depthBehindRow depth p.rhs = some depth := by
  have hall : ∀ p ∈ all, depthBehindRow 1 p.rhs = some 1 := by decide +kernel
  have := depthBehindRow_add (hall p h) (depth - 1)
  rwa [Nat.add_sub_cancel' hpos] at this

/-- The depth behind derived tokens is the one behind the symbols that derive them. -/
theorem Derives.depthBehind_eq {rhs : List Symbol} {values : Symbol.Values rhs} {start : Loc}
    {tokens : List Token} (h : Derives rhs values start tokens) {depth depth' : Nat}
    (hpos : 0 < depth) (hrow : depthBehindRow depth rhs = some depth') :
    depthBehind depth tokens = some depth' := by
  induction h generalizing depth depth' with
  | nil => exact hrow
  | token token kind _ ih =>
    rw [depthBehindRow, ← kind, ← Token.nest_eq] at hrow
    rw [depthBehind]
    split at hrow
    next => cases hrow
    next hne =>
      rw [if_neg hne]
      exact ih (Nat.pos_of_ne_zero hne) hrow
  | node mem _ _ ihbelow ihlater =>
    rw [depthBehindRow, Symbol.nest_nonterminal, if_neg hpos.ne'] at hrow
    rw [depthBehind_append, ihbelow hpos (Production.depthBehindRow_eq mem hpos)]
    exact ihlater hpos hrow

/-! ## Slashes and stars -/

/-- A star may stand first among the tokens of a symbol, or the symbol may have no token. -/
def Symbol.mayBegin : Symbol → Bool
  | .terminal (.mark .star) => true
  | .nonterminal n => [.typeSuffix, .typeSuffixes, .program, .whole .program].contains n
  | _ => false

/-- A slash may stand last among the tokens of a symbol, or the symbol may have no token. -/
def Symbol.mayEnd : Symbol → Bool
  | .terminal (.mark .slash) => true
  | .nonterminal n => [.program, .whole .program].contains n
  | _ => false

/-- The tokens of one symbol do not end in a slash where those of the next one begin with a
star. -/
def Symbol.Apart (a b : Symbol) : Prop := ¬ (a.mayEnd = true ∧ b.mayBegin = true)

instance (a b : Symbol) : Decidable (a.Apart b) := inferInstanceAs (Decidable (¬ _))

/-- The first token is no slash, or the second one is no star. -/
def Token.Apart (a b : Token) : Prop := ¬ (a.terminal = .mark .slash ∧ b.terminal = .mark .star)

/-- What is known of the ends of the tokens of a row of symbols. -/
structure KeepsApart (rhs : List Symbol) (tokens : List Token) : Prop where
  none : rhs = [] → tokens = []
  empty : tokens = [] → ∀ s ∈ rhs, s = .nonterminal .program
  first : ∀ t ∈ tokens.head?, t.terminal = .mark .star → ∀ s ∈ rhs.head?, s.mayBegin = true
  last : ∀ t ∈ tokens.getLast?, t.terminal = .mark .slash → ∀ s ∈ rhs.getLast?, s.mayEnd = true
  apart : rhs.IsChain Symbol.Apart → tokens.IsChain Token.Apart

namespace KeepsApart

variable {s : Symbol} {rhs rest : List Symbol} {tokens tokens' : List Token}

theorem nil : KeepsApart [] [] := ⟨fun _ => rfl, nofun, nofun, nofun, fun _ => .nil⟩

theorem cons (h : KeepsApart [s] tokens) (h' : KeepsApart rest tokens') :
    KeepsApart (s :: rest) (tokens ++ tokens') where
  none := nofun
  empty hnil := by
    obtain ⟨hnil, hnil'⟩ := List.append_eq_nil_iff.1 hnil
    exact List.forall_mem_cons.2 ⟨h.empty hnil s (List.mem_singleton_self s), h'.empty hnil'⟩
  first t ht hstar := by
    rintro _ ⟨⟩
    by_cases hnil : tokens = []
    · rw [h.empty hnil s (List.mem_singleton_self s)]
      rfl
    · rw [List.head?_append_of_ne_nil _ hnil] at ht
      exact h.first t ht hstar s rfl
  last t ht hslash x hx := by
    by_cases hnil' : tokens' = []
    · rw [hnil', List.append_nil] at ht
      rcases List.mem_cons.1 (List.mem_of_getLast? hx) with rfl | hmem
      · exact h.last t ht hslash x rfl
      · rw [h'.empty hnil' x hmem]
        rfl
    · have hrest : rest ≠ [] := fun hrest => hnil' (h'.none hrest)
      rw [List.getLast?_append_of_ne_nil _ hnil'] at ht
      rw [List.getLast?_cons_of_ne_nil hrest] at hx
      exact h'.last t ht hslash x hx
  apart hchain := by
    obtain ⟨hnext, hrest⟩ := List.isChain_cons.1 hchain
    refine List.isChain_append.2 ⟨h.apart (.singleton s), h'.apart hrest, ?_⟩
    rintro a ha b hb ⟨hslash, hstar⟩
    cases rest with
    | nil =>
      rw [h'.none rfl] at hb
      cases hb
    | cons next rest =>
      exact hnext next rfl ⟨h.last a ha hslash s rfl, h'.first b hb hstar next rfl⟩

theorem token {t : Terminal} {token : Token} (kind : token.terminal = t) :
    KeepsApart [.terminal t] [token] where
  none := nofun
  empty := nofun
  first := by
    rintro _ ⟨⟩ hstar _ ⟨⟩
    rw [← kind, hstar]
    rfl
  last := by
    rintro _ ⟨⟩ (hslash : token.terminal = .mark .slash) _ ⟨⟩
    subst kind
    rw [List.getLast_singleton, hslash]
    rfl
  apart _ := .singleton token

theorem node {p : Production} (hp : p ∈ Production.all) (h : KeepsApart p.rhs tokens) :
    KeepsApart [.nonterminal p.lhs] tokens := by
  have hempty : ∀ p ∈ Production.all, (∀ s ∈ p.rhs, s = .nonterminal .program) →
      p.lhs = .program := by decide +kernel
  have hfirst : ∀ p ∈ Production.all, (∀ s ∈ p.rhs.head?, s.mayBegin = true) →
      (Symbol.nonterminal p.lhs).mayBegin = true := by decide +kernel
  have hlast : ∀ p ∈ Production.all, (∀ s ∈ p.rhs.getLast?, s.mayEnd = true) →
      (Symbol.nonterminal p.lhs).mayEnd = true := by decide +kernel
  have hchain : ∀ p ∈ Production.all, p.rhs.IsChain Symbol.Apart := by decide +kernel
  refine ⟨nofun, fun hnil => ?_, fun t ht hstar => ?_, fun t ht hslash => ?_,
    fun _ => h.apart (hchain p hp)⟩
  · exact List.forall_mem_singleton.2 (congrArg _ (hempty p hp (h.empty hnil)))
  · rintro _ ⟨⟩
    exact hfirst p hp (h.first t ht hstar)
  · rintro _ ⟨⟩
    exact hlast p hp (h.last t ht hslash)

end KeepsApart

theorem Derives.keepsApart {rhs : List Symbol} {values : Symbol.Values rhs} {start : Loc}
    {tokens : List Token} (h : Derives rhs values start tokens) : KeepsApart rhs tokens := by
  induction h with
  | nil => exact .nil
  | token token kind _ ih => exact (KeepsApart.token kind).cons ih
  | node mem _ _ ihbelow ihlater => exact (ihbelow.node mem).cons ihlater

/-- No comment opens among the tokens of a symbol. -/
theorem Derives.not_opensComment {s : Symbol} {value : Symbol.Values [s]} {start : Loc}
    {tokens : List Token} (h : Derives [s] value start tokens) : ¬ OpensComment tokens := by
  rintro ⟨slash, star, ⟨front, back, rfl⟩, hslash, hstar, -⟩
  have hchain := h.keepsApart.apart (.singleton s)
  have hboth := (List.isChain_append.1 (List.isChain_append.1 hchain).1).2.1
  exact (List.isChain_cons_cons.1 hboth).1 ⟨hslash, hstar⟩

/-! ## Groups -/

/-- The last lexeme of a text is a comment that goes on to the end of the line. -/
def EndsInLineComment (t : Text) : Prop :=
  ∃ lexemes last, Cuts t (lexemes ++ [last]) [] ∧ (['/', '/'] : Text) <+: last.text

/-- A text that has a tree is closed by the parenthesis right behind it. -/
theorem Closing.distance_of_parse {goal : Goal} {raw : Text} {v : goal.body.Value}
    (h : parse goal raw = .ok v) (hcomment : ¬ EndsInLineComment raw) (later : Text) :
    distance (raw ++ ↑ ')' :: later) 0 0 = .ok raw.length := by
  obtain ⟨hfault, start, hder⟩ := parse_eq_ok_iff.1 h
  obtain ⟨lexemes, hcuts⟩ := Lexed.fault_eq_none_iff.1 hfault
  rw [Lexed.ofText_of_cuts hcuts first?_nil] at hder
  have hdepth : depthBehind 1 (tokensOf lexemes 0 .start) = some 1 :=
    hder.depthBehind_eq Nat.one_pos rfl
  have hend : ∀ l ∈ lexemes.getLast?, (['/', '/'] : Text) <+: l.text → ↑ ')' :: later = [] := by
    intro l hl hprefix
    obtain ⟨front, rfl⟩ := List.getLast?_eq_some_iff.1 hl
    exact absurd ⟨front, l, hcuts, hprefix⟩ hcomment
  rcases distance_of_cuts (s := ')' :: later) hcuts (by simp) (by simp) (fun _ => hend) hdepth with
    ⟨hopens, -⟩ | hpass
  · exact absurd hopens hder.not_opensComment
  · rw [hpass, List.nil_append, distance_close_zero, hcuts.text_eq, List.append_nil]
    simp [Except.map]

end Splice
