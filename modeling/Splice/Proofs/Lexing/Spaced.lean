import Splice.Proofs.Body.Enclosed
import Splice.Proofs.Lexing.Blank
import Splice.Proofs.Lexing.Moved

/-!
# Texts with more blanks and comments in them

Blanks and comments that are inserted right before or right behind a token leave all tokens as they
are, provided that a blank comes first.

* `Trivia`: blanks and comments in a row.
* `Lexed.scan_append_blank`: the tokens before a blank.
* `Lexed.scan_trivia`: the tokens behind blanks and comments.
* `BesideToken.exists_cuts`: a place right before or right behind a token is between lexemes.
* `Lexed.ofText_spaced`: the tokens of a text with more blanks and comments in it.
-/

namespace Splice

/-- Blanks, comments that end, and comments up to a line feed in a row. -/
inductive Trivia : Text → Prop
  | nil : Trivia []
  | blank {c : CodePoint} {later : Text} (space : Lexeme.isSpace c = true) (rest : Trivia later) :
      Trivia (c :: later)
  | blockComment {t later : Text} (inside : ¬ (['*', '/'] : Text) <:+: t) (rest : Trivia later) :
      Trivia ('/' :: '*' :: (t ++ ↑ '*' :: ↑ '/' :: later))
  | lineComment {t later : Text} (inside : ↑ '\n' ∉ t) (rest : Trivia later) :
      Trivia ('/' :: '/' :: (t ++ ↑ '\n' :: later))

/-! ## Comments -/

namespace Lexeme

theorem first?_blockComment {rest : Text} {n : Nat} (h : blockComment ('/' :: rest) = some n) :
    first? ('/' :: rest) = some (.trivia, n) := by
  have hinteger : integer ('/' :: rest) = none := rfl
  have hname : isNameStart '/' = false := by decide
  simp [first?, shapes, interpolated, character, decimal, hinteger, name, hname, h, reclassify]

theorem first?_lineComment (rest : Text) : first? ('/' :: '/' :: rest) =
    some (.trivia, 2 + lengthWhile (· ≠ '\n') rest) := by
  have hinteger : integer ('/' :: '/' :: rest) = none := rfl
  have hblanks : blanks ('/' :: '/' :: rest) = none := rfl
  have hname : isNameStart '/' = false := by decide
  simp [first?, shapes, interpolated, character, decimal, hinteger, name, hname, blockComment,
    string, hblanks, lineComment, reclassify]

/-- A comment that ends is one lexeme. -/
theorem first?_whole_blockComment {t : Text} (h : ¬ (['*', '/'] : Text) <:+: t) (s : Text) :
    first? (↑ '/' :: ↑ '*' :: (t ++ (['*', '/'] : Text)) ++ s) =
      some (.trivia, (↑ '/' :: ↑ '*' :: (t ++ (['*', '/'] : Text))).length) := by
  have hthrough :
      lengthThrough ['*', '/'] (t ++ (['*', '/'] : Text) ++ s) = some (t.length + 2) := by
    rw [List.append_assoc]
    exact lengthThrough_comment h s
  refine first?_blockComment ?_
  change (lengthThrough ['*', '/'] (t ++ (['*', '/'] : Text) ++ s)).map (2 + ·) = _
  rw [hthrough, Option.map_some]
  simp only [List.length_cons, List.length_append, List.length_nil, Option.some.injEq]
  omega

/-- So is a comment up to a line feed, without the line feed. -/
theorem first?_whole_lineComment {t : Text} (h : ↑ '\n' ∉ t) (s : Text) :
    first? (↑ '/' :: ↑ '/' :: t ++ ↑ '\n' :: s) = some (.trivia, (↑ '/' :: ↑ '/' :: t).length) := by
  have ht : ∀ c ∈ t, decide (c ≠ '\n') = true := fun c hc =>
    decide_eq_true fun heq => h (heq ▸ hc)
  rw [List.cons_append, List.cons_append, first?_lineComment, lengthWhile_append ht (by simp),
    Nat.add_comm]
  rfl

end Lexeme

/-! ## Tokens before a blank -/

theorem lengthWhile_eq_length {p : CodePoint → Bool} {l : Text} (h : ∀ c ∈ l, p c = true) :
    lengthWhile p l = l.length := by
  have := Lexeme.lengthWhile_append (t := []) h nofun
  rwa [List.append_nil] at this

theorem endsInLineComment_of_notMem {rest : Text} (h : ↑ '\n' ∉ rest) :
    EndsInLineComment ('/' :: '/' :: rest) := by
  have hlength : lengthWhile (· ≠ '\n') rest = rest.length :=
    lengthWhile_eq_length fun c hc => decide_eq_true (ne_of_mem_of_not_mem hc h)
  have hfirst := Lexeme.first?_lineComment rest
  rw [hlength, Nat.add_comm] at hfirst
  have hcuts := Cuts.single (l := ↑ '/' :: ↑ '/' :: rest) (s := []) (by rwa [List.append_nil])
  rw [List.append_nil] at hcuts
  exact ⟨[], _, hcuts, List.prefix_append (['/', '/'] : Text) rest⟩

theorem EndsInLineComment.of_drop {t : Text} {kind : Lexeme.Class} {n : Nat}
    (first : Lexeme.first? t = some (kind, n)) (h : EndsInLineComment (t.drop n)) :
    EndsInLineComment t := by
  obtain ⟨lexemes, last, hcuts, hlast⟩ := h
  exact ⟨_ :: lexemes, last, .next first hcuts, hlast⟩

theorem OpensComment.append_left {tokens : List Token} (h : OpensComment tokens)
    (before : List Token) : OpensComment (before ++ tokens) := by
  obtain ⟨slash, star, hinside, h⟩ := h
  exact ⟨slash, star, hinside.trans (List.suffix_append before tokens).isInfix, h⟩

theorem tokensOf_cons (l : Lexeme) (ls : List Lexeme) (offset : Nat) (loc : Loc) :
    tokensOf (l :: ls) offset loc = tokensOf [l] offset loc ++
      tokensOf ls (offset + l.text.length) (loc.advanceAll l.text) := by
  have := tokensOf_append [l] ls offset loc
  rwa [joined_cons, joined_nil, List.append_nil] at this

/-- Blanks alone are one lexeme, which is no token. -/
theorem Cuts.tokensOf_eq_nil {x : Text} {lexemes : List Lexeme} (h : Cuts x lexemes [])
    (hx : ∀ c ∈ x, Lexeme.isSpace c = true) (offset : Nat) (loc : Loc) :
    tokensOf lexemes offset loc = [] := by
  cases h with
  | done => rfl
  | @next _ _ kind n _ first later =>
    cases x with
    | nil =>
      rw [first?_nil] at first
      cases first
    | cons c x =>
      obtain ⟨hc, hx⟩ := List.forall_mem_cons.1 hx
      rw [Lexeme.first?_of_isSpace hc, lengthWhile_eq_length hx] at first
      cases first
      rw [← List.length_cons (a := c), List.drop_length] at later
      obtain ⟨rfl, -⟩ := later.nil
      rfl

/-- A text that is not blank has the same first lexeme before a blank, unless something is open
there. -/
theorem NothingOpen.first?_append {x : Text} (h : NothingOpen x) (hend : ¬ EndsInLineComment x)
    (hx : ∃ c ∈ x, Lexeme.isSpace c = false) {b : CodePoint} (hb : Lexeme.isSpace b = true)
    (z : Text) :
    Lexeme.first? (x ++ b :: z) = Lexeme.first? x := by
  refine Lexeme.first?_append (h.shapes_append hb z hx fun {rest} heq => ?_)
  by_contra hmem
  exact hend (heq ▸ endsInLineComment_of_notMem hmem)

namespace Lexed

/-- More tokens in front. -/
def prepend (tokens : List Token) (l : Lexed) : Lexed := { l with tokens := tokens ++ l.tokens }

theorem prepend_append (tokens tokens' : List Token) (l : Lexed) :
    prepend (tokens ++ tokens') l = prepend tokens (prepend tokens' l) := by
  rw [prepend, List.append_assoc]
  rfl

/-- The lexer goes over one lexeme. -/
theorem scan_of_first? {t : Text} {kind : Lexeme.Class} {n : Nat}
    (first : Lexeme.first? t = some (kind, n)) (offset : Nat) (loc : Loc) :
    scan t 0 offset loc = (scan (t.drop n) 0 (offset + n) (loc.advanceAll (t.take n))).prepend
      (tokensOf [⟨kind, t.take n⟩] offset loc) := by
  have hlength : (t.take n).length = n := by
    rw [List.length_take, Nat.min_eq_left (Lexeme.first?_proper first).2]
  rw [scan_of_cuts (.next first (.done _)), joined_cons, joined_nil, List.append_nil, hlength]
  rfl

/-- The tokens of a text are found before a blank, unless something is open there. -/
theorem scan_append_blank {x : Text} {lexemes : List Lexeme} (h : Cuts x lexemes []) {b : CodePoint}
    (hb : Lexeme.isSpace b = true) (z : Text) {offset : Nat} {loc : Loc}
    (hopens : ¬ OpensComment (tokensOf lexemes offset loc)) (hend : ¬ EndsInLineComment x) :
    scan (x ++ b :: z) 0 offset loc = (scan (b :: z) 0 (offset + x.length)
      (loc.advanceAll x)).prepend (tokensOf lexemes offset loc) := by
  induction lexemes generalizing x offset loc with
  | nil =>
    cases h
    rfl
  | cons l lexemes ih =>
    -- Blanks at the end of the text go on with the blank behind it, so they are no lexeme there.
    by_cases hblank : ∃ c ∈ x, Lexeme.isSpace c = false
    · have hopen := NothingOpen.of_cuts h hopens
      obtain ⟨n, first, htext, later⟩ := h.uncons
      obtain ⟨-, hle⟩ := Lexeme.first?_proper first
      have hlength : l.text.length = n := by rw [htext, List.length_take, Nat.min_eq_left hle]
      rw [tokensOf_cons, hlength, htext] at hopens ⊢
      have hopens' : ¬ OpensComment (tokensOf lexemes (offset + n) (loc.advanceAll (x.take n))) :=
        fun hcomment => hopens (hcomment.append_left _)
      have hlater := ih later hopens' fun hcomment => hend (hcomment.of_drop first)
      have hfirst : Lexeme.first? (x ++ b :: z) = some (l.kind, n) := by
        rw [hopen.first?_append hend hblank hb, first]
      have hsum : offset + n + (x.drop n).length = offset + x.length := by
        rw [List.length_drop]
        omega
      have hplace : (loc.advanceAll (x.take n)).advanceAll (x.drop n) = loc.advanceAll x := by
        rw [← Loc.advanceAll_append, List.take_append_drop]
      rw [scan_of_first? hfirst, List.drop_append_of_le_length hle,
        List.take_append_of_le_length hle, hlater, hsum, hplace, prepend_append, ← htext]
    · have hall : ∀ c ∈ x, Lexeme.isSpace c = true := by simpa using hblank
      rw [scan_blanks hall, h.tokensOf_eq_nil hall]
      rfl

/-! ## Tokens behind blanks and comments -/

/-- Blanks and comments only move what stands behind them. -/
theorem scan_trivia {w : Text} (hw : Trivia w) (t : Text) (offset : Nat) (loc : Loc) :
    scan (w ++ t) 0 offset loc = scan t 0 (offset + w.length) (loc.advanceAll w) := by
  -- A comment is cut off as one lexeme, which leaves no token.
  have comment {l s : Text} (h : Lexeme.first? (l ++ s) = some (.trivia, l.length)) (offset : Nat)
      (loc : Loc) : scan (l ++ s) 0 offset loc =
        scan s 0 (offset + l.length) (loc.advanceAll l) := by
    rw [scan_of_first? h, List.drop_left, List.take_left]
    rfl
  induction hw generalizing offset loc with
  | nil => rfl
  | @blank c later space _ ih =>
    rw [List.cons_append, scan_blank space, ih, List.length_cons, Nat.add_assoc,
      Nat.add_comm 1 later.length]
    rfl
  | @blockComment inner later inside _ ih =>
    have hsplit : ↑ '/' :: ↑ '*' :: (inner ++ ↑ '*' :: ↑ '/' :: later) ++ t =
        ↑ '/' :: ↑ '*' :: (inner ++ (['*', '/'] : Text)) ++ (later ++ t) := by simp
    have hlength : (↑ '/' :: ↑ '*' :: (inner ++ ↑ '*' :: ↑ '/' :: later)).length =
        (↑ '/' :: ↑ '*' :: (inner ++ (['*', '/'] : Text))).length + later.length := by simp; omega
    have hplace : loc.advanceAll ('/' :: '*' :: (inner ++ ↑ '*' :: ↑ '/' :: later)) =
        (loc.advanceAll ('/' :: '*' :: (inner ++ (['*', '/'] : Text)))).advanceAll later := by
      rw [← Loc.advanceAll_append]
      simp
    rw [hsplit, comment (Lexeme.first?_whole_blockComment inside _), ih, hlength, hplace,
      Nat.add_assoc]
  | @lineComment inner later inside _ ih =>
    have hsplit : ↑ '/' :: ↑ '/' :: (inner ++ ↑ '\n' :: later) ++ t =
        ↑ '/' :: ↑ '/' :: inner ++ ↑ '\n' :: (later ++ t) := by simp
    have hlength : (↑ '/' :: ↑ '/' :: (inner ++ ↑ '\n' :: later)).length =
        (↑ '/' :: ↑ '/' :: inner).length + 1 + later.length := by simp; omega
    have hplace : loc.advanceAll ('/' :: '/' :: (inner ++ ↑ '\n' :: later)) =
        ((loc.advanceAll ('/' :: '/' :: inner)).advance '\n').advanceAll later :=
      Loc.advanceAll_append loc ('/' :: '/' :: inner) ('\n' :: later)
    rw [hsplit, comment (Lexeme.first?_whole_lineComment inside _), scan_blank rfl, ih, hlength,
      hplace, ← Nat.add_assoc, ← Nat.add_assoc]

end Lexed

/-! ## Beside a token -/

/-- An offset of a source right before or right behind a token. -/
def BesideToken (source : Text) (offset : Nat) : Prop :=
  ∃ token ∈ (Lexed.ofText source).tokens,
    offset = token.offset ∨ offset = token.offset + token.text.length

/-- A comment up to the end of the line is no token, and what stands behind it begins with the line
feed. -/
theorem Cuts.lineComment_last {x y : Text} {lexemes : List Lexeme} {last : Lexeme}
    (h : Cuts x (lexemes ++ [last]) y) (hlast : (['/', '/'] : Text) <+: last.text) :
    last.kind = .trivia ∧ ∀ c ∈ y.head?, c = '\n' := by
  obtain ⟨t, -, hcut⟩ := h.split
  obtain ⟨n, hfirst, htext, hdone⟩ := hcut.uncons
  rw [htext] at hlast
  obtain ⟨rest, rfl⟩ := hlast.trans (List.take_prefix n t)
  obtain ⟨l, t, rfl, hlength, -, ht⟩ := Lexeme.exists_lengthWhile (· ≠ '\n') rest
  have hcomment := Lexeme.first?_lineComment (l ++ t)
  rw [hlength] at hcomment
  obtain ⟨hkind, rfl⟩ : .trivia = last.kind ∧ 2 + l.length = n := by
    have := hcomment.symm.trans hfirst
    simpa using this
  have hdrop : ((['/', '/'] : Text) ++ (l ++ t)).drop (2 + l.length) = t := by
    rw [← List.append_assoc]
    exact List.drop_left' (List.length_append ..)
  rw [hdrop] at hdone
  cases hdone
  exact ⟨hkind.symm, fun c hc => by simpa using ht c hc⟩

theorem Cuts.of_endsInLineComment {x y : Text} {lexemes : List Lexeme}
    (h : Cuts (x ++ y) lexemes y) (hx : EndsInLineComment x) :
    ∃ front last, lexemes = front ++ [last] ∧ last.kind = .trivia ∧ ∀ c ∈ y.head?, c = '\n' := by
  obtain ⟨front, last, hcuts, hlast⟩ := hx
  obtain ⟨rfl, -⟩ := hcuts.unique h.take first?_nil first?_nil
  exact ⟨front, last, rfl, h.lineComment_last hlast⟩

/-- Lexemes that are as long as the beginning of a text are those of the beginning. -/
theorem Cuts.split_at {x y : Text} {front back : List Lexeme} (h : Cuts (x ++ y) (front ++ back) [])
    (hlength : x.length = (joined front).length) : Cuts (x ++ y) front y ∧ Cuts y back [] := by
  obtain ⟨t, hfront, hback⟩ := h.split
  obtain ⟨-, rfl⟩ := List.append_inj hfront.text_eq hlength
  exact ⟨hfront, hback⟩

/-- Beside a token, a source is cut into lexemes, and no comment goes on there. -/
theorem BesideToken.exists_cuts {before after : Text}
    (h : BesideToken (before ++ after) before.length)
    (hfault : (Lexed.ofText (before ++ after)).fault = none) :
    ∃ front back, Cuts (before ++ after) front after ∧ Cuts after back [] ∧
      ¬ EndsInLineComment before := by
  obtain ⟨lexemes, hcuts⟩ := Lexed.fault_eq_none_iff.1 hfault
  obtain ⟨token, htoken, hoffset⟩ := h
  rw [Lexed.ofText_of_cuts hcuts first?_nil] at htoken
  obtain ⟨earlier, later, htokens⟩ := List.append_of_mem htoken
  obtain ⟨front, back, rfl, -, hstart, -⟩ := tokensOf_eq_append htokens
  rcases hoffset with hoffset | hoffset
  · obtain ⟨hfront, hback⟩ := hcuts.split_at (by omega)
    refine ⟨front, _, hfront, hback, fun hcomment => ?_⟩
    obtain ⟨-, -, -, -, hafter⟩ := hfront.of_endsInLineComment hcomment
    obtain ⟨n, hfirst, -⟩ := hback.uncons
    cases after with
    | nil =>
      rw [first?_nil] at hfirst
      cases hfirst
    | cons c after =>
      rw [hafter c rfl, Lexeme.first?_of_isSpace rfl] at hfirst
      cases hfirst
  · rw [List.append_cons] at hcuts
    obtain ⟨hfront, hback⟩ := hcuts.split_at (by simp; omega)
    refine ⟨_, back, hfront, hback, fun hcomment => ?_⟩
    obtain ⟨lexemes, last, heq, hkind, -⟩ := hfront.of_endsInLineComment hcomment
    obtain ⟨-, hlast⟩ := List.append_inj' heq rfl
    cases hlast
    cases hkind

namespace Lexed

variable {before after : Text} {front back : List Lexeme}

theorem ofText_append (hfront : Cuts (before ++ after) front after) (hback : Cuts after back []) :
    ofText (before ++ after) = ⟨tokensOf front 0 .start ++
      tokensOf back before.length (Loc.start.advanceAll before), none⟩ := by
  have hjoined : joined front = before := (List.append_cancel_right hfront.text_eq).symm
  rw [ofText_of_cuts (hfront.append hback) first?_nil, tokensOf_append, hjoined, Nat.zero_add]
  rfl

/-- Blanks and comments that are inserted between lexemes, a blank first, only move what stands
behind them. -/
theorem ofText_spaced (hfront : Cuts (before ++ after) front after) (hback : Cuts after back [])
    (hopens : ¬ OpensComment (tokensOf front 0 .start)) (hend : ¬ EndsInLineComment before)
    {b : CodePoint} {w : Text} (hb : Lexeme.isSpace b = true) (hw : Trivia (b :: w)) :
    ofText (before ++ (b :: w ++ after)) = ⟨tokensOf front 0 .start ++
      tokensOf back (before.length + (b :: w).length)
        ((Loc.start.advanceAll before).advanceAll (b :: w)), none⟩ := by
  rw [List.cons_append, ofText, scan_append_blank hfront.take hb _ hopens hend, ← List.cons_append,
    scan_trivia hw, scan_of_cuts hback, Nat.zero_add]
  simp [prepend, scan]

end Lexed

end Splice
