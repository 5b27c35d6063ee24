import Splice.Body.Closing
import Splice.Proofs.Lexing.Shapes

/-!
# The end of a group and the host lexer

The search for the end of a group goes through the characters by itself. It goes over the lexemes
of the host language one by one nevertheless, so it finds the parenthesis that the lexer finds.

* `Closing.distance_lexeme`: the search goes over a lexeme that is no parenthesis.
* `Closing.distance_of_cuts`: the search goes over a row of lexemes.
* `closeGroup_agrees`: the parenthesis that ends a group is the first one among the tokens that
  matches none before it.
-/

namespace Splice

/-! ## Parentheses among tokens -/

/-- The depth behind a token: an opening parenthesis adds one, a closing one takes one off. -/
def Token.nest (depth : Nat) (token : Token) : Nat :=
  match token.terminal with
  | .mark .lparen => depth + 1
  | .mark .rparen => depth - 1
  | _ => depth

/-- The first token that brings the depth to zero, with the tokens before it. -/
def untilClosing : (depth : Nat) → List Token → Option (List Token × Token)
  | _, [] => none
  | depth, token :: later =>
    if token.nest depth = 0 then some ([], token)
    else (untilClosing (token.nest depth) later).map fun (before, last) => (token :: before, last)

/-- The depth behind tokens, if none of them brings it to zero. -/
def depthBehind : (depth : Nat) → List Token → Option Nat
  | depth, [] => some depth
  | depth, token :: later =>
    if token.nest depth = 0 then none else depthBehind (token.nest depth) later

/-- A slash with a star right behind it among tokens. Only a comment without an end starts so. -/
def OpensComment (tokens : List Token) : Prop :=
  ∃ slash star, [slash, star] <:+: tokens ∧ slash.terminal = .mark .slash ∧
    star.terminal = .mark .star ∧ star.offset = slash.offset + 1

theorem OpensComment.cons {tokens : List Token} (token : Token) (h : OpensComment tokens) :
    OpensComment (token :: tokens) := by
  obtain ⟨slash, star, hinside, h⟩ := h
  exact ⟨slash, star, hinside.trans (List.suffix_cons token tokens).isInfix, h⟩

theorem Token.nest_eq_zero_iff {depth : Nat} {token : Token} (hpos : 0 < depth) :
    token.nest depth = 0 ↔ token.terminal = .mark .rparen ∧ depth = 1 := by
  unfold Token.nest
  split <;> simp_all <;> omega

theorem untilClosing_eq_some {depth : Nat} {tokens before : List Token} {token : Token}
    (hpos : 0 < depth) (h : untilClosing depth tokens = some (before, token)) :
    token.terminal = .mark .rparen ∧ depthBehind depth before = some 1 ∧
      ∃ after, tokens = before ++ token :: after := by
  induction tokens generalizing depth before with
  | nil => cases h
  | cons first later ih =>
    rw [untilClosing] at h
    split at h
    next hzero =>
      cases h
      obtain ⟨hterminal, rfl⟩ := (Token.nest_eq_zero_iff hpos).1 hzero
      exact ⟨hterminal, rfl, later, rfl⟩
    next hne =>
      obtain ⟨⟨before, _⟩, hlater, hfound⟩ := Option.map_eq_some_iff.1 h
      cases hfound
      obtain ⟨hterminal, hdepth, after, rfl⟩ := ih (Nat.pos_of_ne_zero hne) hlater
      refine ⟨hterminal, ?_, after, rfl⟩
      rw [depthBehind, if_neg hne]
      exact hdepth

theorem untilClosing_eq_none {depth : Nat} {tokens : List Token} (hpos : 0 < depth)
    (h : untilClosing depth tokens = none) :
    ∃ depth', depthBehind depth tokens = some (depth' + 1) := by
  induction tokens generalizing depth with
  | nil => exact ⟨depth - 1, congrArg some (by omega)⟩
  | cons first later ih =>
    rw [untilClosing] at h
    split at h
    next => cases h
    next hne =>
      rw [depthBehind, if_neg hne]
      exact ih (Nat.pos_of_ne_zero hne) (Option.map_eq_none_iff.1 h)

namespace Closing

variable {t s : Text} {n depth : Nat}

/-! ## Characters and passages -/

/-- The characters that mean nothing to the search. -/
def isPlain (c : CodePoint) : Bool :=
  !(['"', '\'', '`', '/', '(', ')'] : Text).contains c

theorem isPlain_of {p : CodePoint → Bool}
    (h : p '"' = false ∧ p '\'' = false ∧ p '`' = false ∧ p '/' = false ∧ p '(' = false ∧
      p ')' = false) {c : CodePoint} (hc : p c = true) : isPlain c = true := by
  cases hplain : isPlain c with
  | true => rfl
  | false =>
    simp only [isPlain, List.contains_eq_mem, Bool.not_eq_false', decide_eq_true_eq,
      List.mem_cons, List.not_mem_nil, or_false] at hplain
    rcases hplain with rfl | rfl | rfl | rfl | rfl | rfl <;> simp_all

theorem passage_plain {c : CodePoint} (h : isPlain c = true) (rest : Text) :
    passage (c :: rest) = none := by
  unfold passage
  split <;> first | rfl | (rename_i heq; cases heq; simp [isPlain] at h)

theorem map_add_map_add (x : Except Unclosed Nat) (m n : Nat) :
    (x.map (· + m)).map (· + n) = x.map (· + (m + n)) := by
  cases x with
  | error => rfl
  | ok k => exact congrArg Except.ok (Nat.add_assoc k m n)

theorem map_add_zero (x : Except Unclosed Nat) : x.map (· + 0) = x := by
  cases x <;> rfl

theorem distance_cons_passage {c : CodePoint} {rest : Text}
    (h : passage (c :: rest) = some (.ok n)) :
    distance (c :: rest) 0 depth = (distance rest (n - 1) depth).map (· + 1) := by
  cases depth <;> rw [distance, h]

theorem distance_cons_unclosed {c : CodePoint} {rest : Text} {what : Unclosed}
    (h : passage (c :: rest) = some (.error what)) :
    distance (c :: rest) 0 depth = .error what := by
  cases depth <;> rw [distance, h]

theorem distance_cons_none {c : CodePoint} {rest : Text} (h : passage (c :: rest) = none)
    (hopen : c ≠ '(') (hclose : c ≠ ')') :
    distance (c :: rest) 0 depth = (distance rest 0 depth).map (· + 1) := by
  cases depth <;> rw [distance, h] <;> simp only [if_neg hopen, if_neg hclose]

theorem distance_cons_plain {c : CodePoint} (h : isPlain c = true) (rest : Text) :
    distance (c :: rest) 0 depth = (distance rest 0 depth).map (· + 1) := by
  have hopen : c ≠ '(' := by rintro rfl; simp [isPlain] at h
  have hclose : c ≠ ')' := by rintro rfl; simp [isPlain] at h
  exact distance_cons_none (passage_plain h rest) hopen hclose

theorem distance_open (rest : Text) :
    distance ('(' :: rest) 0 depth = (distance rest 0 (depth + 1)).map (· + 1) := by
  cases depth <;> rfl

theorem distance_close_zero (rest : Text) : distance (')' :: rest) 0 0 = .ok 0 := rfl

theorem distance_close_succ (rest : Text) :
    distance (')' :: rest) 0 (depth + 1) = (distance rest 0 depth).map (· + 1) := rfl

theorem distance_pending (h : n ≤ t.length) :
    distance t n depth = (distance (t.drop n) 0 depth).map (· + n) := by
  induction t generalizing n with
  | nil =>
    obtain rfl := Nat.le_zero.1 h
    rfl
  | cons c t ih =>
    cases n with
    | zero => rw [List.drop_zero, map_add_zero]
    | succ n =>
      rw [distance, ih (Nat.le_of_succ_le_succ h), map_add_map_add]
      rfl

/-- The search goes over a literal or a comment. -/
theorem distance_passage (h : passage t = some (.ok n)) (hpos : 0 < n) (hle : n ≤ t.length) :
    distance t 0 depth = (distance (t.drop n) 0 depth).map (· + n) := by
  cases t with
  | nil => cases h
  | cons c t =>
    obtain ⟨k, rfl⟩ : ∃ k, n = k + 1 := ⟨n - 1, by omega⟩
    rw [distance_cons_passage h, Nat.add_sub_cancel, List.drop_succ_cons,
      distance_pending (Nat.le_of_succ_le_succ hle), map_add_map_add]

/-- The search goes over characters that mean nothing to it. -/
theorem distance_plain {l : Text} (h : ∀ c ∈ l, isPlain c = true) :
    distance (l ++ t) 0 depth = (distance t 0 depth).map (· + l.length) := by
  induction l with
  | nil => rw [List.nil_append, List.length_nil, map_add_zero]
  | cons c l ih =>
    rw [List.cons_append, distance_cons_plain (h c (by simp)),
      ih fun c hc => h c (List.mem_cons_of_mem _ hc), map_add_map_add, List.length_cons]

/-- The search goes over the characters at the start of a text if none of them means anything. -/
theorem distance_plain_take (hle : n ≤ t.length) (h : ∀ c ∈ t.take n, isPlain c = true) :
    distance (t ++ s) 0 depth = (distance (t.drop n ++ s) 0 depth).map (· + n) := by
  have hlength : (t.take n).length = n := by simp [hle]
  have : distance (t.take n ++ (t.drop n ++ s)) 0 depth =
      (distance (t.drop n ++ s) 0 depth).map (· + (t.take n).length) := distance_plain h
  rwa [← List.append_assoc, List.take_append_drop, hlength] at this

theorem distance_passage_append (h : passage (t ++ s) = some (.ok n)) (hpos : 0 < n)
    (hle : n ≤ t.length) :
    distance (t ++ s) 0 depth = (distance (t.drop n ++ s) 0 depth).map (· + n) := by
  rw [distance_passage h hpos (by rw [List.length_append]; omega),
    List.drop_append_of_le_length hle]

/-! ## Lexemes -/

theorem passage_string (h : Lexeme.string t = some n) (s : Text) :
    passage (t ++ s) = some (.ok n) := by
  unfold Lexeme.string at h
  split at h
  next rest =>
    obtain ⟨m, hm, rfl⟩ := Option.map_eq_some_iff.1 h
    have htail := Quoted.tail_append (Quoted.tail_weaken '"' (fun _ _ => rfl) hm) s
    rw [List.cons_append, passage, htail, passage.close]
  next => cases h

theorem passage_character (h : Lexeme.character t = some n) (s : Text) :
    passage (t ++ s) = some (.ok n) := by
  unfold Lexeme.character at h
  split at h
  next => cases h
  next rest _ =>
    obtain ⟨m, hm, rfl⟩ := Option.map_eq_some_iff.1 h
    have htail := Quoted.tail_append (Quoted.tail_weaken '\'' (fun _ _ => rfl) hm) s
    rw [List.cons_append, passage, htail, passage.close]
  next => cases h

theorem passage_rawString (h : Lexeme.rawString t = some n) (s : Text) :
    passage (t ++ s) = some (.ok n) := by
  unfold Lexeme.rawString at h
  split at h
  next rest =>
    obtain ⟨m, hm, rfl⟩ := Option.map_eq_some_iff.1 h
    rw [List.cons_append, passage, lengthThrough_append hm, passage.close]
  next => cases h

theorem passage_blockComment (h : Lexeme.blockComment t = some n) (s : Text) :
    passage (t ++ s) = some (.ok n) := by
  unfold Lexeme.blockComment at h
  split at h
  next rest =>
    obtain ⟨m, hm, rfl⟩ := Option.map_eq_some_iff.1 h
    rw [List.cons_append, List.cons_append, passage, lengthThrough_append hm, passage.close]
  next => cases h

/-- The search takes the line feed behind a comment with it, which means nothing to it anyway. -/
theorem distance_lineComment (h : Lexeme.lineComment t = some n) (hend : t.drop n = [] → s = []) :
    distance (t ++ s) 0 depth = (distance (t.drop n ++ s) 0 depth).map (· + n) := by
  unfold Lexeme.lineComment at h
  split at h
  next rest =>
    cases h
    obtain ⟨l, t', rfl, hlength, hl, ht'⟩ := Lexeme.exists_lengthWhile (· ≠ '\n') rest
    have hdrop : (↑ '/' :: ↑ '/' :: (l ++ t')).drop (2 + l.length) = t' := by
      rw [Nat.add_comm, List.drop_succ_cons, List.drop_succ_cons, List.drop_left]
    rw [hlength] at hend ⊢
    rw [hdrop] at hend ⊢
    -- The comment ends with the text, or in front of a line feed, which the search takes along
    -- and the lexer does not.
    cases t' with
    | nil =>
      rw [hend rfl, List.append_nil, List.append_nil, List.append_nil]
      rw [List.append_nil] at hlength
      have hpassage : passage ('/' :: '/' :: l) = some (.ok (2 + l.length)) := by
        rw [passage, hlength, Nat.min_eq_right (Nat.le_succ _)]
      rw [distance_passage hpassage (by omega) (by simp; omega), Nat.add_comm 2,
        List.drop_succ_cons, List.drop_succ_cons, List.drop_length]
    | cons c t' =>
      obtain rfl : c = '\n' := by simpa using ht' c rfl
      have hpassage : passage (↑ '/' :: ↑ '/' :: (l ++ ↑ '\n' :: t') ++ s) =
          some (.ok (2 + (l.length + 1))) := by
        rw [List.cons_append, List.cons_append, List.append_assoc, passage,
          Lexeme.lengthWhile_append hl (by simp), Nat.min_eq_left (by simp)]
      have hdrop' :
          (↑ '/' :: ↑ '/' :: (l ++ ↑ '\n' :: t') ++ s).drop (2 + (l.length + 1)) = t' ++ s := by
        rw [← Nat.add_assoc, ← List.drop_drop, List.drop_append_of_le_length (by simp; omega),
          hdrop]
        rfl
      have hsum : 1 + (2 + l.length) = 2 + (l.length + 1) := by omega
      rw [distance_passage hpassage (by omega) (by simp; omega), hdrop', List.cons_append,
        distance_cons_plain (by decide), map_add_map_add, hsum]
  next => cases h

/-- The search goes over an operator or a bracket, unless a comment starts there. -/
theorem distance_mark {m : Mark} {rest : Text} (hopen : m ≠ .lparen) (hclose : m ≠ .rparen)
    (hslash : m = .slash → ∀ c ∈ rest.head?, c ≠ '/' ∧ c ≠ '*') :
    distance (m.text ++ rest) 0 depth = (distance rest 0 depth).map (· + m.text.length) := by
  -- Only the slash could begin something that the search passes over.
  by_cases hm : m = .slash
  · subst hm
    have hnone : passage ('/' :: rest) = none := by
      cases rest with
      | nil => rfl
      | cons c rest =>
        obtain ⟨hslash, hstar⟩ := hslash rfl c rfl
        unfold passage
        split <;> simp_all
    exact distance_cons_none hnone (by decide) (by decide)
  · refine distance_plain fun c hc => ?_
    have hplain : m.text.all isPlain = true := by cases m <;> first | rfl | contradiction
    exact List.all_eq_true.1 hplain c hc

/-- The search goes over a lexeme that is no parenthesis, unless it takes it for the start of a
comment or goes on behind the line that it ends. -/
theorem distance_lexeme {kind : Lexeme.Class} (hfirst : Lexeme.first? t = some (kind, n))
    (hopen : kind ≠ .token (.mark .lparen)) (hclose : kind ≠ .token (.mark .rparen))
    (hs : ∀ c ∈ s.head?, c = ')')
    (hstar : kind = .token (.mark .slash) → (t.drop n).head? ≠ some ↑ '*')
    (hend : Lexeme.lineComment t = some n → t.drop n = [] → s = []) :
    distance (t ++ s) 0 depth = (distance (t.drop n ++ s) 0 depth).map (· + n) := by
  obtain ⟨hpos, hle⟩ := Lexeme.first?_proper hfirst
  -- Literals and comments are passed over as a whole; all other lexemes have no character that
  -- means anything to the search.
  cases Lexeme.found_of_first? hfirst with
  -- The letter in front of the quote is none of the search's business, so the string behind it is
  -- passed over.
  | interpolated h =>
    cases t with
    | nil => cases h
    | cons c t =>
      simp only [Lexeme.interpolated, Option.ite_none_right_eq_some] at h
      obtain ⟨hc, h⟩ := h
      obtain ⟨m, hm, rfl⟩ := Option.map_eq_some_iff.1 h
      obtain ⟨hpos', hle'⟩ := Lexeme.string_proper _ _ hm
      have hplain : isPlain c = true := by rcases hc with rfl | rfl <;> decide
      rw [List.cons_append, distance_cons_plain hplain,
        distance_passage_append (passage_string hm s) hpos' hle', map_add_map_add, Nat.add_comm 1,
        List.drop_succ_cons]
  | character h => exact distance_passage_append (passage_character h s) hpos hle
  | decimal h =>
    refine distance_plain_take hle fun c hc => isPlain_of ?_ (Lexeme.isDecimalPart_of_mem_take h hc)
    decide
  | name h =>
    refine distance_plain_take hle fun c hc => isPlain_of ?_ (Lexeme.isNamePart_of_mem_take h hc)
    decide
  | blockComment h => exact distance_passage_append (passage_blockComment h s) hpos hle
  | string h => exact distance_passage_append (passage_string h s) hpos hle
  | blanks h =>
    refine distance_plain_take hle fun c hc => isPlain_of ?_ (Lexeme.isSpace_of_mem_take h hc)
    decide
  | lineComment h => exact distance_lineComment h (hend h)
  | rawString h => exact distance_passage_append (passage_rawString h s) hpos hle
  | integer h =>
    refine distance_plain_take hle fun c hc => isPlain_of ?_ (Lexeme.isDecimal_of_mem_take h hc)
    decide
  | mark m h hblock hline =>
    obtain ⟨rfl, rest, rfl⟩ := Lexeme.spelled_eq_some h
    rw [List.drop_left] at hstar ⊢
    rw [List.append_assoc]
    refine distance_mark (fun hm => hopen (hm ▸ rfl)) (fun hm => hclose (hm ▸ rfl)) ?_
    rintro rfl c hc
    cases rest with
    | nil =>
      rw [hs c hc]
      decide
    | cons c' rest =>
      cases hc
      refine ⟨?_, fun hc => hstar rfl (hc ▸ rfl)⟩
      rintro rfl
      cases hline

/-- The search fails where a comment opens that has no end. -/
theorem distance_unclosed_comment (h : Lexeme.blockComment ('/' :: '*' :: t) = none) :
    distance ('/' :: '*' :: t) 0 depth = .error .blockComment := by
  refine distance_cons_unclosed ?_
  rw [passage, Option.map_eq_none_iff.1 h, passage.close]

/-- A slash before a star that starts no comment is a token, and so is the star. -/
theorem opensComment_of_cuts {rest : Text} {lexemes : List Lexeme}
    (h : Cuts ('*' :: t) lexemes rest) (hstar : rest.head? ≠ some ↑ '*') (offset : Nat)
    (loc : Loc) :
    OpensComment (tokensOf (⟨.token (.mark .slash), ['/']⟩ :: lexemes) offset loc) := by
  cases h with
  | done => exact absurd rfl hstar
  -- Nothing longer than a star begins with one.
  | next first later =>
    have hfirst : Lexeme.first? ('*' :: t) = some (.token (.mark .star), 1) := rfl
    rw [hfirst] at first
    cases first
    exact ⟨_, _, List.prefix_append [_, _] _ |>.isInfix, rfl, rfl, rfl⟩

/-- A lexeme that is no parenthesis leaves the depth as it is. -/
theorem exists_depthBehind_of_cons {kind : Lexeme.Class} {text : Text} {lexemes : List Lexeme}
    {offset last : Nat} {loc : Loc} (hopen : kind ≠ .token (.mark .lparen))
    (hclose : kind ≠ .token (.mark .rparen))
    (hdepth : depthBehind (depth + 1) (tokensOf (⟨kind, text⟩ :: lexemes) offset loc) =
      some last) :
    ∃ offset₁ loc₁, depthBehind (depth + 1) (tokensOf lexemes offset₁ loc₁) = some last ∧
      (OpensComment (tokensOf lexemes offset₁ loc₁) →
        OpensComment (tokensOf (⟨kind, text⟩ :: lexemes) offset loc)) := by
  cases kind with
  | trivia => exact ⟨_, _, hdepth, id⟩
  | token terminal =>
    refine ⟨_, _, ?_, .cons _⟩
    have hnest : Token.nest (depth + 1) ⟨terminal, text, offset, loc⟩ = depth + 1 := by
      unfold Token.nest
      split <;> simp_all
    rw [tokensOf, depthBehind, hnest, if_neg (Nat.succ_ne_zero _)] at hdepth
    exact hdepth

/-- The search goes over lexemes among which no parenthesis closes it, unless a comment without an
end opens there. -/
theorem distance_of_cuts {rest : Text} {lexemes : List Lexeme} (h : Cuts t lexemes rest)
    (hs : ∀ c ∈ s.head?, c = ')') (hstar : rest.head? ≠ some ↑ '*')
    (hend : rest = [] → ∀ l ∈ lexemes.getLast?, (['/', '/'] : Text) <+: l.text → s = [])
    {offset depth' : Nat} {loc : Loc}
    (hdepth : depthBehind (depth + 1) (tokensOf lexemes offset loc) = some (depth' + 1)) :
    (OpensComment (tokensOf lexemes offset loc) ∧
      (s = [] → ∃ what, distance t 0 depth = .error what)) ∨
    distance (t ++ s) 0 depth =
      (distance (rest ++ s) 0 depth').map (· + (joined lexemes).length) := by
  -- The depth of the search is one less than that of the tokens, which counts the parenthesis in
  -- front of the group.
  induction h generalizing offset loc depth with
  | done t =>
    cases hdepth
    exact .inr (map_add_zero _).symm
  | @next t rest kind n lexemes first later ih =>
    obtain ⟨hpos, hle⟩ := Lexeme.first?_proper first
    have hlength : (t.take n).length = n := by simp [hle]
    have hend' : rest = [] → ∀ l ∈ lexemes.getLast?, (['/', '/'] : Text) <+: l.text → s = [] := by
      intro hrest l hl
      refine hend hrest l ?_
      rw [Option.mem_def] at hl ⊢
      rw [List.getLast?_cons, hl, Option.getD_some]
    -- One step of the search, then the induction hypothesis for the other lexemes.
    have carry {depth₁ offset₁ : Nat} {loc₁ : Loc}
        (hstep : distance (t ++ s) 0 depth = (distance (t.drop n ++ s) 0 depth₁).map (· + n))
        (hdepth : depthBehind (depth₁ + 1) (tokensOf lexemes offset₁ loc₁) = some (depth' + 1))
        (hopens : OpensComment (tokensOf lexemes offset₁ loc₁) →
          OpensComment (tokensOf (⟨kind, t.take n⟩ :: lexemes) offset loc)) :
        (OpensComment (tokensOf (⟨kind, t.take n⟩ :: lexemes) offset loc) ∧
          (s = [] → ∃ what, distance t 0 depth = .error what)) ∨
        distance (t ++ s) 0 depth =
          (distance (rest ++ s) 0 depth').map
            (· + (joined (⟨kind, t.take n⟩ :: lexemes)).length) := by
      rcases ih hstar hend' hdepth with ⟨hcomment, herror⟩ | hpass
      · refine .inl ⟨hopens hcomment, ?_⟩
        rintro rfl
        obtain ⟨what, hwhat⟩ := herror rfl
        rw [List.append_nil, List.append_nil, hwhat] at hstep
        exact ⟨what, hstep⟩
      · refine .inr ?_
        rw [hstep, hpass, map_add_map_add, joined_cons, List.length_append, hlength,
          Nat.add_comm n]
    -- Parentheses are counted on both sides, a slash in front of a star stops the search, and all
    -- else leaves the depth as it is.
    by_cases hopen : kind = .token (.mark .lparen)
    · subst hopen
      obtain ⟨rfl, ⟨t, rfl⟩, -⟩ := Lexeme.mark_of_first? first
      exact carry (distance_open _) hdepth (.cons _)
    by_cases hclose : kind = .token (.mark .rparen)
    · subst hclose
      obtain ⟨rfl, ⟨t, rfl⟩, -⟩ := Lexeme.mark_of_first? first
      cases depth with
      | zero => cases hdepth
      | succ depth => exact carry (distance_close_succ _) hdepth (.cons _)
    by_cases hcomment : kind = .token (.mark .slash) ∧ (t.drop n).head? = some ↑ '*'
    · obtain ⟨rfl, hhead⟩ := hcomment
      obtain ⟨rfl, ⟨t, rfl⟩, hblock, -⟩ := Lexeme.mark_of_first? first
      obtain ⟨t, rfl⟩ : ∃ t', t = ↑ '*' :: t' := List.head?_eq_some_iff.1 hhead
      refine .inl ⟨opensComment_of_cuts later hstar offset loc, fun _ => ?_⟩
      exact ⟨_, distance_unclosed_comment hblock⟩
    · obtain ⟨offset₁, loc₁, hdepth, hopens⟩ := exists_depthBehind_of_cons hopen hclose hdepth
      refine carry (distance_lexeme first hopen hclose hs (fun hk hh => hcomment ⟨hk, hh⟩) ?_)
        hdepth hopens
      intro hline hnil
      rw [hnil] at later
      obtain ⟨rfl, rfl⟩ := later.nil
      exact hend rfl _ rfl (Lexeme.prefix_of_lineComment hline)

/-- The search ends at the first parenthesis that closes the group among the tokens, unless a
comment without an end opens before. -/
theorem distance_of_untilClosing {rest : Text} {lexemes : List Lexeme} (h : Cuts t lexemes rest)
    {loc : Loc} {before : List Token} {token : Token}
    (hclosing : untilClosing 1 (tokensOf lexemes 0 loc) = some (before, token)) :
    (OpensComment before ∧ ∃ what, distance t 0 0 = .error what) ∨
      distance t 0 0 = .ok token.offset := by
  obtain ⟨hterminal, hdepth, after, htokens⟩ := untilClosing_eq_some Nat.one_pos hclosing
  obtain ⟨front, back, rfl, rfl, hoffset, -⟩ := tokensOf_eq_append htokens
  obtain ⟨t', hfront, hback⟩ := h.split
  obtain ⟨n, hfirst, -⟩ := hback.uncons
  simp only [hterminal] at hfirst
  obtain ⟨-, ⟨t', rfl⟩, -⟩ := Lexeme.mark_of_first? hfirst
  -- In front of the closing parenthesis the depth is back at that of the group.
  have hdepth : depthBehind (0 + 1) (tokensOf front 0 loc) = some (0 + 1) := hdepth
  have hpass := distance_of_cuts (s := []) hfront (by simp) (by simp [Mark.text])
    (fun _ _ _ _ => rfl) hdepth
  rw [List.append_nil, List.append_nil] at hpass
  rcases hpass with ⟨hcomment, herror⟩ | hpass
  · exact .inl ⟨hcomment, herror rfl⟩
  · refine .inr ?_
    rw [hpass, hoffset]
    rfl

/-- Where no token closes the group, the search fails or leaves the lexemes behind. -/
theorem le_distance_of_untilClosing_eq_none {rest : Text} {lexemes : List Lexeme}
    (h : Cuts t lexemes rest) (hrest : Lexeme.first? rest = none) {loc : Loc}
    (hclosing : untilClosing 1 (tokensOf lexemes 0 loc) = none) (hfound : distance t 0 0 = .ok n) :
    rest ≠ [] ∧ (joined lexemes).length ≤ n := by
  obtain ⟨depth', hdepth⟩ := untilClosing_eq_none Nat.one_pos hclosing
  have hstar : rest.head? ≠ some ↑ '*' := by
    intro hhead
    obtain ⟨rest, rfl⟩ := List.head?_eq_some_iff.1 hhead
    cases hrest
  have hdepth : depthBehind (0 + 1) (tokensOf lexemes 0 loc) = some (depth' + 1) := hdepth
  have hpass := distance_of_cuts (s := []) h (by simp) hstar (fun _ _ _ _ => rfl) hdepth
  rw [List.append_nil, List.append_nil, hfound] at hpass
  rcases hpass with ⟨-, herror⟩ | hpass
  · obtain ⟨what, hwhat⟩ := herror rfl
    cases hwhat
  · cases hlater : distance rest 0 depth' with
    | error what => rw [hlater] at hpass; cases hpass
    | ok k =>
      rw [hlater] at hpass
      cases hpass
      refine ⟨?_, Nat.le_add_left _ _⟩
      rintro rfl
      cases hlater

end Closing

theorem closeGroup_eq_ok_iff {body raw : Text} {start close : Nat} {opener : Int} :
    closeGroup body start opener = .ok (raw, close) ↔
      ∃ n, Closing.distance (body.drop start) 0 0 = .ok n ∧ raw = (body.drop start).take n ∧
        close = start + n := by
  unfold closeGroup
  cases Closing.distance (body.drop start) 0 0 with
  | error what => simp
  | ok n => simp [eq_comm]

/-- The end of a group is the first parenthesis among the tokens of the host language that brings
the depth to zero, if no comment without an end opens before it; and where the search ends before
the lexer stops, it ends at that parenthesis. -/
theorem closeGroup_agrees (body : Text) (start : Nat) (opener : Int) :
    (∀ before token,
      untilClosing 1 (Lexed.ofText (body.drop start)).tokens = some (before, token) →
      ¬ OpensComment before →
      closeGroup body start opener =
        .ok ((body.drop start).take token.offset, start + token.offset)) ∧
    (∀ raw close, closeGroup body start opener = .ok (raw, close) →
      (∀ fault ∈ (Lexed.ofText (body.drop start)).fault, close < start + fault.offset) →
      ∃ before token,
        untilClosing 1 (Lexed.ofText (body.drop start)).tokens = some (before, token) ∧
        token.terminal = .mark .rparen ∧ close = start + token.offset ∧
        raw = (body.drop start).take token.offset) := by
  obtain ⟨lexemes, rest, hcuts, hnone⟩ := exists_cuts (body.drop start)
  rw [Lexed.ofText_of_cuts hcuts hnone]
  constructor
  · intro before token hclosing hcomment
    rcases Closing.distance_of_untilClosing hcuts hclosing with ⟨hopens, -⟩ | hfound
    · exact absurd hopens hcomment
    · exact closeGroup_eq_ok_iff.2 ⟨token.offset, hfound, rfl, rfl⟩
  · intro raw close hclose hfault
    obtain ⟨n, hfound, rfl, rfl⟩ := closeGroup_eq_ok_iff.1 hclose
    -- If the tokens did not close the group, the search would have gone over all of them, up to
    -- the fault.
    cases hclosing : untilClosing 1 (tokensOf lexemes 0 .start) with
    | none =>
      obtain ⟨hne, hle⟩ := Closing.le_distance_of_untilClosing_eq_none hcuts hnone hclosing hfound
      obtain ⟨c, rest, rfl⟩ := List.exists_cons_of_ne_nil hne
      have := hfault _ rfl
      simp only at this
      omega
    | some found =>
      obtain ⟨before, token⟩ := found
      have hterminal := (untilClosing_eq_some Nat.one_pos hclosing).1
      rcases Closing.distance_of_untilClosing hcuts hclosing with ⟨-, what, hwhat⟩ | hfound'
      · rw [hfound] at hwhat
        cases hwhat
      · rw [hfound] at hfound'
        cases hfound'
        exact ⟨before, token, rfl, hterminal, rfl, rfl⟩

/-- A parenthesis in a string does not end the group. -/
theorem closeGroup_agrees_string :
    let body : Text := "\")\") y"
    closeGroup body 0 (-2) = .ok ("\")\"", 3) ∧
      ∃ before token,
        untilClosing 1 (Lexed.ofText (body.drop 0)).tokens = some (before, token) ∧
        token.terminal = .mark .rparen ∧ 3 = 0 + token.offset ∧
        "\")\"" = (body.drop 0).take token.offset := by
  intro body
  obtain ⟨hforward, hbackward⟩ := closeGroup_agrees body 0 (-2)
  have hclose := hforward [⟨.stringLit, "\")\"", 0, ⟨1, 1⟩⟩]
    ⟨.mark .rparen, [')'], 3, ⟨1, 4⟩⟩ (by decide) (by
      rintro ⟨slash, star, hinside, -⟩
      exact absurd hinside.length_le (by simp))
  exact ⟨hclose, hbackward _ _ hclose (by decide)⟩

end Splice
