import Splice.Grammar.LexemeLength
import Splice.Grammar.Lexer

/-!
# Cutting a text into lexemes

The lexer as a relation. `Cuts t lexemes rest` says that the lexer takes the lexemes from the start
of `t` and is then before `rest`. Blanks and comments are lexemes here too, so nothing of the text
is lost.

* `Cuts.text_eq`: the lexemes join to the part of the text that was cut.
* `exists_cuts`: every text is cut up to its end or up to a place where no lexeme starts.
* `Lexed.scan_of_cuts`, `Lexed.fault_eq_none_iff`: what the lexer makes of a text that is cut.
* `tokensOf`: the tokens among lexemes, with their places.
-/

namespace Splice

/-- A piece of a text with its class. -/
structure Lexeme where
  kind : Lexeme.Class
  text : Text
deriving DecidableEq, Inhabited

/-- The text of a row of lexemes. -/
def joined (lexemes : List Lexeme) : Text := lexemes.flatMap Lexeme.text

@[simp] theorem joined_nil : joined [] = [] := rfl

@[simp] theorem joined_cons (l : Lexeme) (ls : List Lexeme) :
    joined (l :: ls) = l.text ++ joined ls := rfl

@[simp] theorem joined_append (ls ls' : List Lexeme) :
    joined (ls ++ ls') = joined ls ++ joined ls' := List.flatMap_append

/-- The lexer takes the lexemes from the start of the first text and leaves the second one. -/
inductive Cuts : Text → List Lexeme → Text → Prop
  | done (t : Text) : Cuts t [] t
  | next {t rest : Text} {kind : Lexeme.Class} {n : Nat} {lexemes : List Lexeme}
      (first : Lexeme.first? t = some (kind, n)) (later : Cuts (t.drop n) lexemes rest) :
      Cuts t (⟨kind, t.take n⟩ :: lexemes) rest

namespace Cuts

variable {t t' t'' : Text} {lexemes lexemes' : List Lexeme}

theorem text_eq (h : Cuts t lexemes t') : t = joined lexemes ++ t' := by
  induction h with
  | done t => rfl
  | @next t rest _ n _ _ _ ih => rw [joined_cons, List.append_assoc, ← ih, List.take_append_drop]

theorem append (h : Cuts t lexemes t') (h' : Cuts t' lexemes' t'') :
    Cuts t (lexemes ++ lexemes') t'' := by
  induction h with
  | done t => exact h'
  | next first _ ih => exact .next first (ih h')

/-- One lexeme, given by its text. -/
theorem single {l s : Text} {kind : Lexeme.Class}
    (h : Lexeme.first? (l ++ s) = some (kind, l.length)) : Cuts (l ++ s) [⟨kind, l⟩] s := by
  have hdone : Cuts ((l ++ s).drop l.length) [] s := by
    rw [List.drop_left]
    exact .done s
  have := Cuts.next h hdone
  rwa [List.take_left] at this

end Cuts

theorem first?_nil : Lexeme.first? [] = none := by decide

/-- A text is cut up to a place where no lexeme starts, such as its end. -/
theorem exists_cuts (t : Text) :
    ∃ lexemes rest, Cuts t lexemes rest ∧ Lexeme.first? rest = none := by
  induction hn : t.length using Nat.strongRecOn generalizing t with
  | ind n ih =>
    cases hfirst : Lexeme.first? t with
    | none => exact ⟨[], t, .done t, hfirst⟩
    | some found =>
      obtain ⟨kind, size⟩ := found
      obtain ⟨hpos, hle⟩ := Lexeme.first?_proper hfirst
      obtain ⟨lexemes, rest, hcuts, hrest⟩ := ih (t.drop size).length
        (by rw [List.length_drop]; omega) _ rfl
      exact ⟨_, rest, .next hfirst hcuts, hrest⟩

theorem Cuts.nil {lexemes : List Lexeme} {rest : Text} (h : Cuts [] lexemes rest) :
    lexemes = [] ∧ rest = [] := by
  cases h with
  | done => exact ⟨rfl, rfl⟩
  | next first => rw [first?_nil] at first; cases first

theorem Cuts.uncons {t rest : Text} {l : Lexeme} {lexemes : List Lexeme}
    (h : Cuts t (l :: lexemes) rest) :
    ∃ n, Lexeme.first? t = some (l.kind, n) ∧ l.text = t.take n ∧ Cuts (t.drop n) lexemes rest := by
  cases h with
  | next first later => exact ⟨_, first, rfl, later⟩

/-- The lexer passes every boundary between lexemes. -/
theorem Cuts.split {t rest : Text} {front back : List Lexeme} (h : Cuts t (front ++ back) rest) :
    ∃ t', Cuts t front t' ∧ Cuts t' back rest := by
  induction front generalizing t with
  | nil => exact ⟨t, .done t, h⟩
  | cons l front ih =>
    cases h with
    | next first later =>
      obtain ⟨t', hfront, hback⟩ := ih later
      exact ⟨t', .next first hfront, hback⟩

/-- The lexer has only one way to cut a text. -/
theorem Cuts.unique {t : Text} {lexemes lexemes' : List Lexeme} {rest rest' : Text}
    (h : Cuts t lexemes rest) (h' : Cuts t lexemes' rest') (hrest : Lexeme.first? rest = none)
    (hrest' : Lexeme.first? rest' = none) : lexemes = lexemes' ∧ rest = rest' := by
  induction h generalizing lexemes' with
  | done t =>
    cases h' with
    | done => exact ⟨rfl, rfl⟩
    | next first => rw [hrest] at first; cases first
  | next first _ ih =>
    cases h' with
    | done => rw [hrest'] at first; cases first
    | next first' later' =>
      rw [first] at first'
      cases first'
      obtain ⟨rfl, rfl⟩ := ih later' hrest
      exact ⟨rfl, rfl⟩

/-! ## Tokens -/

/-- The tokens among lexemes that start at an offset and a place. -/
def tokensOf : List Lexeme → (offset : Nat) → Loc → List Token
  | [], _, _ => []
  | ⟨.trivia, t⟩ :: later, offset, loc =>
    tokensOf later (offset + t.length) (loc.advanceAll t)
  | ⟨.token terminal, t⟩ :: later, offset, loc =>
    ⟨terminal, t, offset, loc⟩ :: tokensOf later (offset + t.length) (loc.advanceAll t)

@[simp] theorem Loc.advanceAll_append (loc : Loc) (t t' : Text) :
    loc.advanceAll (t ++ t') = (loc.advanceAll t).advanceAll t' := List.foldl_append

/-- Without a line feed only the column moves. -/
theorem Loc.advanceAll_of_notMem {t : Text} (h : ↑ '\n' ∉ t) (loc : Loc) :
    loc.advanceAll t = loc.right t.length := by
  induction t generalizing loc with
  | nil => simp [advanceAll, right]
  | cons c t ih =>
    obtain ⟨hc, ht⟩ := List.ne_and_not_mem_of_not_mem_cons h
    have hstep : loc.advance c = loc.right 1 := if_neg hc.symm
    have hlater : loc.advanceAll (c :: t) = (loc.advance c).advanceAll t := rfl
    rw [hlater, ih ht, hstep, right, right, right, List.length_cons, Int.natCast_succ,
      Int.add_assoc, Int.add_comm 1]

theorem tokensOf_append (ls ls' : List Lexeme) (offset : Nat) (loc : Loc) :
    tokensOf (ls ++ ls') offset loc = tokensOf ls offset loc ++
      tokensOf ls' (offset + (joined ls).length) (loc.advanceAll (joined ls)) := by
  induction ls generalizing offset loc with
  | nil => rfl
  | cons l ls ih =>
    obtain ⟨kind, t⟩ := l
    cases kind <;> simp [tokensOf, ih, Nat.add_assoc]

/-- A token among the tokens of lexemes is one of these lexemes. -/
theorem tokensOf_eq_append {ls : List Lexeme} {offset : Nat} {loc : Loc} {before after : List Token}
    {token : Token} (h : tokensOf ls offset loc = before ++ token :: after) :
    ∃ front back, ls = front ++ ⟨.token token.terminal, token.text⟩ :: back ∧
      before = tokensOf front offset loc ∧ token.offset = offset + (joined front).length ∧
      token.loc = loc.advanceAll (joined front) := by
  induction ls generalizing offset loc before with
  | nil => simp [tokensOf] at h
  | cons l ls ih =>
    obtain ⟨kind, t⟩ := l
    cases kind with
    | trivia =>
      obtain ⟨front, back, rfl, rfl, hoffset, hloc⟩ := ih h
      exact ⟨⟨.trivia, t⟩ :: front, back, rfl, rfl, by simp [hoffset, Nat.add_assoc],
        by simp [hloc]⟩
    | token terminal =>
      rw [tokensOf] at h
      cases before with
      | nil =>
        obtain ⟨rfl, -⟩ := List.cons.inj h
        exact ⟨[], ls, rfl, rfl, rfl, rfl⟩
      | cons first before =>
        obtain ⟨rfl, hlater⟩ := List.cons.inj h
        obtain ⟨front, back, rfl, rfl, hoffset, hloc⟩ := ih hlater
        exact ⟨⟨.token terminal, t⟩ :: front, back, rfl, rfl, by simp [hoffset, Nat.add_assoc],
          by simp [hloc]⟩

/-- A token is a lexeme of a text, at its offset and its place. -/
def Token.StandsIn (source : Text) (token : Token) : Prop :=
  ∃ before rest, source = before ++ (token.text ++ rest) ∧ token.offset = before.length ∧
    token.loc = Loc.start.advanceAll before ∧
    Lexeme.first? (token.text ++ rest) = some (.token token.terminal, token.text.length)

theorem Token.StandsIn.text_ne_nil {source : Text} {token : Token} (h : token.StandsIn source) :
    token.text ≠ [] := by
  obtain ⟨_, _, -, -, -, hfirst⟩ := h
  exact List.ne_nil_of_length_pos (Lexeme.first?_proper hfirst).1

namespace Lexed

/-- Characters that belong to a lexeme found before are passed over. -/
theorem scan_pending {t : Text} {n : Nat} (h : n ≤ t.length) (offset : Nat) (loc : Loc) :
    scan t n offset loc = scan (t.drop n) 0 (offset + n) (loc.advanceAll (t.take n)) := by
  induction t generalizing n offset loc with
  | nil =>
    obtain rfl := Nat.le_zero.1 h
    rfl
  | cons c t ih =>
    cases n with
    | zero => rfl
    | succ n =>
      rw [scan, ih (Nat.le_of_succ_le_succ h)]
      simp [Loc.advanceAll, Nat.add_assoc, Nat.add_comm 1 n]

/-- The lexer finds the tokens of the lexemes that it cuts off, and goes on behind them. -/
theorem scan_of_cuts {t rest : Text} {lexemes : List Lexeme} (h : Cuts t lexemes rest)
    (offset : Nat) (loc : Loc) :
    scan t 0 offset loc =
      { scan rest 0 (offset + (joined lexemes).length) (loc.advanceAll (joined lexemes)) with
        tokens := tokensOf lexemes offset loc ++
          (scan rest 0 (offset + (joined lexemes).length)
            (loc.advanceAll (joined lexemes))).tokens } := by
  induction h generalizing offset loc with
  | done t => rfl
  | @next t rest kind n lexemes first _ ih =>
    obtain ⟨hpos, hle⟩ := Lexeme.first?_proper first
    obtain ⟨n, rfl⟩ : ∃ k, n = k + 1 := ⟨n - 1, by omega⟩
    cases t with
    | nil => simp at hle
    | cons c t =>
      have hn : n ≤ t.length := Nat.le_of_succ_le_succ hle
      have hlen : offset + 1 + n = offset + (n + 1) := by omega
      rw [scan, first]
      simp only [Nat.add_sub_cancel]
      rw [scan_pending hn, hlen, ← List.drop_succ_cons (a := c), ih]
      have htake : (loc.advance c).advanceAll (t.take n) =
          loc.advanceAll ((c :: t).take (n + 1)) := rfl
      have hsize : ((c :: t).take (n + 1)).length = n + 1 := by simp [hn]
      cases kind <;>
        simp only [tokensOf, cons, joined_cons, List.length_append, Loc.advanceAll_append, htake,
          hsize, Nat.add_assoc, List.cons_append]

/-- Where no lexeme starts, the lexer stops. -/
theorem scan_of_none {t : Text} (h : Lexeme.first? t = none) (offset : Nat) (loc : Loc) :
    scan t 0 offset loc = ⟨[], t.head?.map fun c => ⟨c, offset, loc⟩⟩ := by
  cases t with
  | nil => rfl
  | cons c t => rw [scan, h]; rfl

/-- The tokens of a text, and the place at which the lexer stops before its end. -/
theorem ofText_of_cuts {t rest : Text} {lexemes : List Lexeme} (h : Cuts t lexemes rest)
    (hrest : Lexeme.first? rest = none) :
    ofText t = ⟨tokensOf lexemes 0 .start, rest.head?.map fun c =>
      ⟨c, (joined lexemes).length, Loc.start.advanceAll (joined lexemes)⟩⟩ := by
  rw [ofText, scan_of_cuts h, scan_of_none hrest]
  simp

/-- A text that is one lexeme is one token. -/
theorem ofText_single {terminal : Terminal} {t : Text}
    (h : Lexeme.first? (t ++ []) = some (.token terminal, t.length)) :
    ofText t = ⟨[⟨terminal, t, 0, .start⟩], none⟩ := by
  have hcuts := Cuts.single h
  rw [List.append_nil] at hcuts
  rw [ofText_of_cuts hcuts first?_nil]
  rfl

/-- A text without a fault is cut up to its end. -/
theorem fault_eq_none_iff {t : Text} :
    (ofText t).fault = none ↔ ∃ lexemes, Cuts t lexemes [] := by
  obtain ⟨lexemes, rest, hcuts, hnone⟩ := exists_cuts t
  constructor
  · intro h
    rw [ofText_of_cuts hcuts hnone] at h
    simp only [Option.map_eq_none_iff, List.head?_eq_none_iff] at h
    exact ⟨lexemes, h ▸ hcuts⟩
  · rintro ⟨lexemes, h⟩
    rw [ofText_of_cuts h first?_nil]
    rfl

theorem standsIn_of_mem {source : Text} {token : Token} (h : token ∈ (ofText source).tokens) :
    token.StandsIn source := by
  obtain ⟨lexemes, rest, hcuts, hnone⟩ := exists_cuts source
  rw [ofText_of_cuts hcuts hnone] at h
  obtain ⟨before, after, htokens⟩ := List.append_of_mem h
  obtain ⟨front, back, rfl, -, hoffset, hloc⟩ := tokensOf_eq_append htokens
  obtain ⟨t, hfront, hback⟩ := hcuts.split
  obtain ⟨n, hfirst, htext, -⟩ := hback.uncons
  simp only at hfirst htext
  have hlength : token.text.length = n := by
    rw [htext, List.length_take, Nat.min_eq_left (Lexeme.first?_proper hfirst).2]
  refine ⟨joined front, t.drop n, ?_, by rw [hoffset, Nat.zero_add], hloc, ?_⟩
  · rw [htext, List.take_append_drop]
    exact hfront.text_eq
  · rw [hlength, htext, List.take_append_drop]
    exact hfirst

end Lexed

end Splice
