import Splice.Proofs.Body.Closing
import Splice.Proofs.Literal.Tokens

/-!
# Balanced texts

The search for the end of a group counts parentheses. What it accepts can be said without a count:
a balanced text is a row of literals, comments, groups in parentheses that are balanced inside, and
characters that mean nothing.

* `BalancedText`: the texts that may stand between the parentheses of a group.
* `BalancedText.distance_append`: the search goes over a balanced text at any depth.
* `Closes`, `Closes.distance_eq`, `Closing.closes_of_distance`: what the search has gone over closes
  as many parentheses as were open.
* `closeGroup_balanced`: the end of a group is the only place that leaves a balanced text before a
  closing parenthesis.
-/

namespace Splice

/-- What may stand between quotes `q`: a backslash takes the next character with it, and no quote
stands by itself. -/
inductive IsQuotedText (q : CodePoint) : Text → Prop
  | nil : IsQuotedText q []
  | plain {c : CodePoint} {t : Text} (hslash : c ≠ '\\') (hquote : c ≠ q)
    (later : IsQuotedText q t) : IsQuotedText q (c :: t)
  | escape {c : CodePoint} {t : Text} (later : IsQuotedText q t) : IsQuotedText q ('\\' :: c :: t)

/-- The literals and comments in which parentheses do not count. -/
inductive IsPassage : Text → Prop
  | quoted {q : CodePoint} {inner : Text} (hq : q = '"' ∨ q = '\'') (h : IsQuotedText q inner) :
    IsPassage (q :: (inner ++ [q]))
  | rawString {inner : Text} (h : ↑ '`' ∉ inner) : IsPassage ('`' :: (inner ++ (['`'] : Text)))
  | lineComment {inner : Text} (h : ↑ '\n' ∉ inner) :
    IsPassage ('/' :: '/' :: (inner ++ (['\n'] : Text)))
  | blockComment {inner : Text} (h : ¬ (['*', '/'] : Text) <:+: inner) :
    IsPassage ('/' :: '*' :: (inner ++ (['*', '/'] : Text)))

/-- The texts that may stand between the parentheses of a group. -/
inductive BalancedText : Text → Prop
  | nil : BalancedText []
  | passage {w t : Text} (h : IsPassage w) (later : BalancedText t) : BalancedText (w ++ t)
  | group {g t : Text} (inner : BalancedText g) (later : BalancedText t) :
    BalancedText ('(' :: (g ++ ↑ ')' :: t))
  | character {c : CodePoint} {t : Text} (hc : c ∉ (['"', '\'', '`', '(', ')'] : Text))
    (hslash : c = '/' → ∀ d ∈ t.head?, d ≠ '/' ∧ d ≠ '*') (later : BalancedText t) :
    BalancedText (c :: t)

/-! ## Literals and comments -/

/-- A literal between quotes ends at the first quote that no backslash takes with it. -/
theorem IsQuotedText.tail_eq {q : CodePoint} (hq : q ≠ '\\') {inner : Text}
    (h : IsQuotedText q inner) (s : Text) :
    Quoted.tail (fun _ => true) q (inner ++ q :: s) = some (inner.length + 1) := by
  induction h with
  | nil => rw [List.nil_append, Quoted.tail_cons hq, if_pos rfl, List.length_nil]
  | plain hslash hquote _ ih =>
    rw [List.cons_append, Quoted.tail_cons hslash, if_neg hquote, ih]
    rfl
  | escape _ ih =>
    rw [List.cons_append, List.cons_append, Quoted.tail, if_pos rfl, ih]
    rfl

theorem isQuotedText_of_tail {q : CodePoint} {t : Text} {n : Nat}
    (h : Quoted.tail (fun _ => true) q t = some n) :
    ∃ inner later, t = inner ++ q :: later ∧ n = inner.length + 1 ∧ IsQuotedText q inner := by
  fun_induction Quoted.tail (fun _ => true) q t generalizing n with
  | case1 => cases h
  | case2 => cases h
  | case3 c rest _ ih =>
    obtain ⟨m, hm, rfl⟩ := Option.map_eq_some_iff.1 h
    obtain ⟨inner, later, rfl, rfl, hinner⟩ := ih hm
    exact ⟨'\\' :: c :: inner, later, rfl, rfl, .escape hinner⟩
  | case4 => cases h
  | case5 rest =>
    cases h
    exact ⟨[], rest, rfl, rfl, .nil⟩
  | case6 c rest hnil hcons hne ih =>
    have hslash := Quoted.ne_backslash hnil hcons
    obtain ⟨m, hm, rfl⟩ := Option.map_eq_some_iff.1 h
    obtain ⟨inner, later, rfl, rfl, hinner⟩ := ih hm
    exact ⟨c :: inner, later, rfl, rfl, .plain hslash hne hinner⟩

theorem IsPassage.length_pos {w : Text} (h : IsPassage w) : 0 < w.length := by
  cases h <;> exact Nat.succ_pos _

namespace Closing

variable {t w : Text} {n : Nat}

/-- A literal or comment is passed over, whatever stands behind it. -/
theorem passage_of_isPassage (h : IsPassage w) (s : Text) :
    passage (w ++ s) = some (.ok w.length) := by
  cases h with
  | quoted hq h =>
    rcases hq with rfl | rfl
    · have htail := h.tail_eq (by decide) s
      simp [passage, passage.close, htail, Nat.add_comm]
    · have htail := h.tail_eq (by decide) s
      simp [passage, passage.close, htail, Nat.add_comm]
  | rawString h => simp [passage, passage.close, lengthThrough_singleton h s, Nat.add_comm]
  | @lineComment inner h =>
    have hinner : ∀ c ∈ inner, decide (c ≠ '\n') = true := by
      intro c hc
      simp only [decide_eq_true_eq]
      rintro rfl
      exact h hc
    have hline := Lexeme.lengthWhile_append (t := ↑ '\n' :: s) hinner (by simp)
    simp only [List.cons_append, List.append_assoc, List.nil_append, passage, hline,
      List.length_cons, List.length_append, List.length_nil]
    congr 2
    omega
  | blockComment h =>
    simp only [List.cons_append, List.append_assoc, List.nil_append, passage,
      lengthThrough_comment h s, passage.close, List.length_cons, List.length_append,
      List.length_nil]
    congr 2
    omega

/-- What is passed over is a literal or a comment, but for a comment that has no line feed, which
takes the rest of the text. -/
theorem isPassage_of_passage (h : passage t = some (.ok n)) :
    n = t.length ∨ ∃ w later, t = w ++ later ∧ n = w.length ∧ IsPassage w := by
  have hclose {what : Unclosed} {opening : Nat} {found : Option Nat}
      (h : some (passage.close what opening found) = some (.ok n)) :
      ∃ m, found = some m ∧ n = opening + m := by
    cases found with
    | none => cases h
    | some m =>
      cases h
      exact ⟨m, rfl, rfl⟩
  have hquoted {q : CodePoint} {rest : Text} {m : Nat} (hq : q = '"' ∨ q = '\'')
      (hm : Quoted.tail (fun _ => true) q rest = some m) :
      ∃ w later, q :: rest = w ++ later ∧ 1 + m = w.length ∧ IsPassage w := by
    obtain ⟨inner, later, rfl, rfl, hinner⟩ := isQuotedText_of_tail hm
    refine ⟨_, later, ?_, ?_, .quoted hq hinner⟩
    · simp
    · simp [Nat.add_comm]
  unfold passage at h
  split at h
  next rest =>
    obtain ⟨m, hm, rfl⟩ := hclose h
    exact .inr (hquoted (.inl rfl) hm)
  next rest =>
    obtain ⟨m, hm, rfl⟩ := hclose h
    exact .inr (hquoted (.inr rfl) hm)
  next rest =>
    obtain ⟨m, hm, rfl⟩ := hclose h
    obtain ⟨inner, later, rfl, rfl, hinner⟩ := exists_lengthThrough (by decide) hm
    rw [List.singleton_infix_iff] at hinner
    refine .inr ⟨_, later, ?_, ?_, .rawString hinner⟩
    · simp
    · simp [Nat.add_comm]
  next rest =>
    cases h
    obtain ⟨l, later, rfl, hlength, hl, hlater⟩ := Lexeme.exists_lengthWhile (· ≠ '\n') rest
    rw [hlength]
    -- Without a line feed the comment goes to the end of the text.
    cases later with
    | nil =>
      refine .inl ?_
      simp only [List.append_nil, List.length_cons]
      omega
    | cons c later =>
      obtain rfl : c = '\n' := by simpa using hlater c rfl
      have hinner : ↑ '\n' ∉ l := fun hmem => by simpa using hl _ hmem
      refine .inr ⟨_, later, ?_, ?_, .lineComment hinner⟩
      · simp
      · simp only [List.length_cons, List.length_append, List.length_nil]
        omega
  next rest =>
    obtain ⟨m, hm, rfl⟩ := hclose h
    obtain ⟨inner, later, rfl, rfl, hinner⟩ := exists_lengthThrough (by decide) hm
    refine .inr ⟨_, later, ?_, ?_, .blockComment hinner⟩
    · simp
    · simp only [List.length_cons, List.length_append, List.length_nil]
      omega
  next => cases h

theorem passage_of_notMem {c : CodePoint} (hc : c ∉ (['"', '\'', '`', '(', ')'] : Text))
    (hslash : c = '/' → ∀ d ∈ t.head?, d ≠ '/' ∧ d ≠ '*') : passage (c :: t) = none := by
  simp only [List.mem_cons, List.not_mem_nil, or_false, not_or] at hc
  unfold passage
  split <;> simp_all

theorem of_passage_eq_none {c : CodePoint} (h : passage (c :: t) = none) :
    c ∉ (['"', '\'', '`'] : Text) ∧ (c = '/' → ∀ d ∈ t.head?, d ≠ '/' ∧ d ≠ '*') := by
  constructor
  · intro hc
    simp only [List.mem_cons, List.not_mem_nil, or_false] at hc
    rcases hc with rfl | rfl | rfl <;> cases h
  · rintro rfl d hd
    obtain ⟨t, rfl⟩ := List.head?_eq_some_iff.1 hd
    constructor
    · rintro rfl
      cases h
    · rintro rfl
      cases h

end Closing

/-! ## The search goes over balanced texts -/

/-- The search goes over a balanced text, however many parentheses are open, unless a comment
starts at its end. -/
theorem BalancedText.distance_append {raw : Text} (h : BalancedText raw) {s : Text}
    (hs : ∀ c ∈ s.head?, c ≠ '/' ∧ c ≠ '*') (depth : Nat) :
    Closing.distance (raw ++ s) 0 depth =
      (Closing.distance s 0 depth).map (· + raw.length) := by
  -- What stands behind the text is arbitrary: in a group it begins with the closing parenthesis.
  induction h generalizing s depth with
  | nil => exact (Closing.map_add_zero _).symm
  | @passage w t hw _ ih =>
    have hpassage := Closing.passage_of_isPassage hw (t ++ s)
    rw [List.append_assoc, Closing.distance_passage hpassage hw.length_pos (by simp),
      List.drop_left, ih hs, Closing.map_add_map_add, List.length_append, Nat.add_comm w.length]
  | @group g t _ _ ihinner ihlater =>
    have hclose : ∀ c ∈ (↑ ')' :: (t ++ s)).head?, c ≠ '/' ∧ c ≠ '*' := by simp
    have hlength : t.length + (1 + (g.length + 1)) = (↑ '(' :: (g ++ ↑ ')' :: t)).length := by
      simp only [List.length_cons, List.length_append]
      omega
    rw [List.cons_append, List.append_assoc, List.cons_append, Closing.distance_open,
      ihinner hclose, Closing.distance_close_succ, ihlater hs, Closing.map_add_map_add,
      Closing.map_add_map_add, Closing.map_add_map_add, hlength]
  | @character c t hc hslash _ ih =>
    have hslash' : c = '/' → ∀ d ∈ (t ++ s).head?, d ≠ '/' ∧ d ≠ '*' := by
      intro heq d hd
      cases t with
      | nil => exact hs d hd
      | cons d' t => exact hslash heq d hd
    have hopen : c ≠ '(' := by rintro rfl; simp at hc
    have hclose : c ≠ ')' := by rintro rfl; simp at hc
    rw [List.cons_append, Closing.distance_cons_none (Closing.passage_of_notMem hc hslash') hopen
      hclose, ih hs, Closing.map_add_map_add, List.length_cons]

/-! ## What the search has gone over -/

/-- The text closes the parentheses that are open, and is balanced before, between and behind
them. -/
inductive Closes : (depth : Nat) → Text → Prop
  | done {raw : Text} (h : BalancedText raw) : Closes 0 raw
  | close {depth : Nat} {g raw : Text} (h : BalancedText g) (later : Closes depth raw) :
    Closes (depth + 1) (g ++ ↑ ')' :: raw)

namespace Closes

variable {depth : Nat} {raw : Text}

/-- What may stand before a balanced text may stand before a text that closes parentheses. -/
theorem prepend {x : Text} (h : Closes depth raw)
    (hx : ∀ t, t <+: raw → BalancedText t → BalancedText (x ++ t)) : Closes depth (x ++ raw) := by
  cases h with
  | done h => exact .done (hx raw (List.prefix_refl raw) h)
  | @close depth g raw h later =>
    rw [← List.append_assoc]
    exact .close (hx g (List.prefix_append g _) h) later

theorem passage {w : Text} (hw : IsPassage w) (h : Closes depth raw) : Closes depth (w ++ raw) :=
  h.prepend fun _ _ hbalanced => .passage hw hbalanced

/-- An opening parenthesis takes the first closing one that is left over. -/
theorem group (h : Closes (depth + 1) raw) : Closes depth ('(' :: raw) := by
  cases h with
  | @close _ g raw hg hraw =>
    have hgroup := hraw.prepend (x := ↑ '(' :: (g ++ ([')'] : Text))) fun t _ hbalanced => by
      rw [List.cons_append, List.append_assoc]
      exact .group hg hbalanced
    rwa [List.cons_append, List.append_assoc] at hgroup

theorem character {c : CodePoint} (hc : c ∉ (['"', '\'', '`', '(', ')'] : Text))
    (hslash : c = '/' → ∀ d ∈ raw.head?, d ≠ '/' ∧ d ≠ '*') (h : Closes depth raw) :
    Closes depth (c :: raw) := by
  refine h.prepend (x := [c]) fun t hbegins hbalanced => .character hc ?_ hbalanced
  intro heq d hd
  obtain ⟨later, rfl⟩ := hbegins
  obtain ⟨t, rfl⟩ := List.head?_eq_some_iff.1 hd
  exact hslash heq d rfl

/-- The search ends at the parenthesis behind what closes those that are open. -/
theorem distance_eq (h : Closes depth raw) (s : Text) :
    Closing.distance (raw ++ ↑ ')' :: s) 0 depth = .ok raw.length := by
  induction h with
  | done h =>
    rw [h.distance_append (by simp), Closing.distance_close_zero]
    exact congrArg Except.ok (Nat.zero_add _)
  | @close depth g raw h _ ih =>
    rw [List.append_assoc, h.distance_append (by simp), List.cons_append,
      Closing.distance_close_succ, ih, List.length_append, List.length_cons]
    exact congrArg Except.ok (Nat.add_comm _ _)

end Closes

/-- The search ends at a parenthesis, and what stands before closes those that were open. -/
theorem Closing.closes_of_distance {t : Text} {depth n : Nat} (h : distance t 0 depth = .ok n) :
    ∃ raw later : Text, t = raw ++ ↑ ')' :: later ∧ n = raw.length ∧ Closes depth raw := by
  -- The search takes more than one character at a time, so the induction is on the length of what
  -- is left.
  induction hlength : t.length using Nat.strongRecOn generalizing t depth n with
  | ind size ih =>
    subst hlength
    -- One step of the search over `x`, with the induction hypothesis for the rest.
    have step {x rest : Text} {depth' : Nat} (ht : t = x ++ rest) (hpos : 0 < x.length)
        (h : (distance rest 0 depth').map (· + x.length) = .ok n)
        (hx : ∀ raw later : Text, rest = raw ++ ↑ ')' :: later → Closes depth' raw →
          Closes depth (x ++ raw)) :
        ∃ raw later : Text, t = raw ++ ↑ ')' :: later ∧ n = raw.length ∧ Closes depth raw := by
      obtain ⟨m, hm, rfl⟩ := exists_of_map_eq_ok h
      have hlt : rest.length < t.length := by
        rw [ht, List.length_append]
        omega
      obtain ⟨raw, later, hrest, rfl, hraw⟩ := ih _ hlt hm rfl
      refine ⟨x ++ raw, later, ?_, ?_, hx raw later hrest hraw⟩
      · rw [ht, hrest, List.append_assoc]
      · rw [List.length_append, Nat.add_comm]
    cases t with
    | nil => cases h
    | cons c t =>
      cases hpassage : passage (c :: t) with
      | some found =>
        cases found with
        | error what =>
          rw [distance_cons_unclosed hpassage] at h
          cases h
        | ok k =>
          -- Behind a comment that takes the rest of the text nothing is found.
          rcases isPassage_of_passage hpassage with rfl | ⟨w, later, ht, rfl, hw⟩
          · rw [distance_passage hpassage (by simp) (Nat.le_refl _), List.drop_length] at h
            cases h
          · rw [distance_passage hpassage hw.length_pos (by simp [ht]), ht, List.drop_left] at h
            exact step ht hw.length_pos h fun _ _ _ hraw => hraw.passage hw
      | none =>
        obtain ⟨hquotes, hslash⟩ := of_passage_eq_none hpassage
        by_cases hopen : c = '('
        · subst hopen
          rw [distance_open] at h
          exact step (x := (['('] : Text)) rfl Nat.one_pos h fun _ _ _ hraw => hraw.group
        by_cases hclose : c = ')'
        · subst hclose
          cases depth with
          | zero =>
            cases h
            exact ⟨[], t, rfl, rfl, .done .nil⟩
          | succ depth =>
            exact step (x := ([')'] : Text)) rfl Nat.one_pos h fun _ _ _ hraw => .close .nil hraw
        · rw [distance_cons_none hpassage hopen hclose] at h
          have hc : c ∉ (['"', '\'', '`', '(', ')'] : Text) := by
            simp only [List.mem_cons, List.not_mem_nil, or_false, not_or] at hquotes ⊢
            exact ⟨hquotes.1, hquotes.2.1, hquotes.2.2, hopen, hclose⟩
          -- A slash must not begin a comment in the balanced text either.
          refine step (x := [c]) rfl Nat.one_pos h fun raw later ht hraw => hraw.character hc ?_
          intro heq d hd
          obtain ⟨raw, rfl⟩ := List.head?_eq_some_iff.1 hd
          exact hslash heq d (by rw [ht]; rfl)

/-! ## The end of a group -/

/-- A group that starts at the offset `start` of a body may end at `close`: the text between is
balanced, and a parenthesis follows it. -/
def IsGroupAt (body : Text) (start : Nat) (raw : Text) (close : Nat) : Prop :=
  start ≤ close ∧ raw = (body.take close).drop start ∧ BalancedText raw ∧
    body[close]? = some ↑ ')'

theorem isGroupAt_iff {body raw : Text} {start close : Nat} :
    IsGroupAt body start raw close ↔ BalancedText raw ∧ close = start + raw.length ∧
      ∃ later : Text, body.drop start = raw ++ ↑ ')' :: later := by
  constructor
  · rintro ⟨hle, hraw, hbalanced, hclose⟩
    obtain ⟨hlt, hclose⟩ := List.getElem?_eq_some_iff.1 hclose
    rw [List.drop_take] at hraw
    have hlength : raw.length = close - start := by
      rw [hraw, List.length_take, List.length_drop]
      omega
    refine ⟨hbalanced, by omega, body.drop (close + 1), ?_⟩
    rw [← hclose, ← List.drop_eq_getElem_cons hlt, hraw]
    have hdrop : body.drop close = (body.drop start).drop (close - start) := by
      rw [List.drop_drop, Nat.add_sub_cancel' hle]
    rw [hdrop, List.take_append_drop]
  · rintro ⟨hbalanced, rfl, later, hdrop⟩
    refine ⟨Nat.le_add_right _ _, ?_, hbalanced, ?_⟩
    · rw [List.drop_take, hdrop, Nat.add_sub_cancel_left, List.take_left]
    · rw [← List.getElem?_drop, hdrop, List.getElem?_append_right (Nat.le_refl _), Nat.sub_self]
      rfl

theorem closeGroup_eq_ok_iff_isGroupAt {body raw : Text} {start close : Nat} {opener : Int} :
    closeGroup body start opener = .ok (raw, close) ↔ IsGroupAt body start raw close := by
  rw [closeGroup_eq_ok_iff, isGroupAt_iff]
  constructor
  · rintro ⟨n, hn, rfl, rfl⟩
    obtain ⟨raw, later, hdrop, rfl, hcloses⟩ := Closing.closes_of_distance hn
    rw [hdrop, List.take_left]
    cases hcloses with
    | done h => exact ⟨h, rfl, later, rfl⟩
  · rintro ⟨hbalanced, rfl, later, hdrop⟩
    refine ⟨raw.length, ?_, ?_, rfl⟩
    · rw [hdrop]
      exact (Closes.done hbalanced).distance_eq later
    · rw [hdrop, List.take_left]

theorem closeGroup_error {body : Text} {start : Nat} {opener : Int} {rejection : Rejection}
    (h : closeGroup body start opener = .error rejection) :
    rejection.cause.fault = .unbalancedGroup ∧ rejection.start = some opener ∧
      rejection.stop = some (body.length : Int) := by
  unfold closeGroup at h
  split at h
  next => cases h
  next =>
    cases h
    exact ⟨rfl, rfl, rfl⟩

/-- A group is found if and only if a balanced text stands before a closing parenthesis, and there
is one place at most where it does. Without such a place the body is rejected from the group's
opener to its end. -/
theorem closeGroup_balanced (body : Text) (start : Nat) (opener : Int) :
    (∀ raw close, closeGroup body start opener = .ok (raw, close) ↔
      IsGroupAt body start raw close) ∧
    (∀ raw raw' close close', IsGroupAt body start raw close → IsGroupAt body start raw' close' →
      close = close') ∧
    ((∀ raw close, ¬ IsGroupAt body start raw close) →
      ∃ rejection, closeGroup body start opener = .error rejection ∧
        rejection.cause.fault = .unbalancedGroup ∧ rejection.start = some opener ∧
        rejection.stop = some (body.length : Int)) := by
  refine ⟨fun raw close => closeGroup_eq_ok_iff_isGroupAt, ?_, ?_⟩
  · intro raw raw' close close' h h'
    have hfound : closeGroup body start opener = .ok (raw, close) :=
      closeGroup_eq_ok_iff_isGroupAt.2 h
    rw [closeGroup_eq_ok_iff_isGroupAt.2 h'] at hfound
    cases hfound
    rfl
  · intro hnone
    cases hclose : closeGroup body start opener with
    | ok found => exact absurd (closeGroup_eq_ok_iff_isGroupAt.1 hclose) (hnone found.1 found.2)
    | error rejection => exact ⟨rejection, rfl, closeGroup_error hclose⟩

/-- A group with another one in it, and one without an end. -/
theorem closeGroup_balanced_nested :
    closeGroup ['(', 'a', ')', ')', 'b'] 0 (-2) = .ok (['(', 'a', ')'], 3) ∧
      (∀ raw close, IsGroupAt ['(', 'a', ')', ')', 'b'] 0 raw close → close = 3) ∧
      ∃ rejection, closeGroup ['a'] 0 (-2) = .error rejection ∧ rejection.start = some (-2) := by
  have hinner : BalancedText ['a'] := .character (by decide) (by decide) .nil
  have hgroup : IsGroupAt ['(', 'a', ')', ')', 'b'] 0 ['(', 'a', ')'] 3 :=
    ⟨by decide, rfl, .group hinner .nil, rfl⟩
  have hnone : ∀ raw close, ¬ IsGroupAt ['a'] 0 raw close := by
    rintro raw close ⟨-, -, -, hclose⟩
    cases List.mem_singleton.1 (List.mem_of_getElem? hclose)
  obtain ⟨hfound, hunique, -⟩ := closeGroup_balanced ['(', 'a', ')', ')', 'b'] 0 (-2)
  refine ⟨(hfound _ _).2 hgroup, fun raw close h => hunique _ _ _ _ h hgroup, ?_⟩
  obtain ⟨rejection, herror, -, hstart, -⟩ := (closeGroup_balanced ['a'] 0 (-2)).2.2 hnone
  exact ⟨rejection, herror, hstart⟩

end Splice
