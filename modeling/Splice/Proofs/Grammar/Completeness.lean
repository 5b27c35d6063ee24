import Splice.Proofs.Grammar.Derivation
import Splice.Proofs.Grammar.Steps

/-!
# Everything that is derived is read

A reader whose automaton agrees with the host grammar reads every row of tokens that its goal
derives, and builds the value of the derivation. The proof follows the derivation: a terminal is
one shift, and a production is the reading of its right side and one reduction.

* `Derives.runs`: the steps that read what a row of symbols derives.
* `Reader.readAll_of_derives`: the reader accepts, with the value of the derivation.
-/

namespace Splice

/-- Nonterminals that derive at least one token: all but whole texts, which nothing is made of,
and programs, which may be empty. -/
def Nonterminal.isInner : Nonterminal → Bool
  | .whole _ | .program => false
  | _ => true

/-- Symbols that derive at least one token. -/
def Symbol.isInner : Symbol → Bool
  | .terminal _ => true
  | .nonterminal n => n.isInner

/-- Only the first symbol of a right side may derive no token, and this only if the left side may
derive none or is a whole text. -/
def Production.isGrounded (p : Production) : Bool :=
  p.rhs.tail.all Symbol.isInner && (!p.lhs.isInner || p.rhs.head?.any Symbol.isInner)

theorem Production.isGrounded_of_mem : ∀ p ∈ Production.all, p.isGrounded = true := by
  decide +kernel

section

variable {r : Reader} {follow : PackedTable} {goals : List Nat} {goal : Goal}

/-- The right side of a production can be followed wherever its left side can. -/
theorem Reader.Serves.rows (hr : r.Serves follow goals goal) {q next number : Nat} {p : Production}
    (hq : q < r.automaton.states.length)
    (hstep : r.automaton.step q (Symbol.nonterminal p.lhs).code = some next)
    (hp : Production.all[number]? = some p) :
    r.automaton.Admits follow
      (fun t =>
        (follow.get (r.automaton.place q (Symbol.nonterminal p.lhs).code)).testBit t = true)
      (fun last => ∀ t,
        (follow.get (r.automaton.place q (Symbol.nonterminal p.lhs).code)).testBit t = true →
          r.automaton.reduction last t = some number) q (p.rhs.map Symbol.code) :=
  hr.consistent.rows hq (by rw [hr.terminals_eq]; exact Nat.le_add_right _ _)
    (by rw [hr.symbols_eq]; exact Symbol.code_lt _) hstep
    (by rw [hr.grammar]; exact Grammar.host_rule hp) rfl

/-- What a symbol derives that can be followed starts with a token that can be shifted. -/
theorem Derives.first_shifts (hr : r.Serves follow goals goal) {rhs : List Symbol}
    {values : Symbol.Values rhs} {start : Loc} {tokens : List Token}
    (h : Derives rhs values start tokens) {s : Symbol} (hs : rhs.head? = some s)
    (hinner : s.isInner = true) {q next : Nat} (hq : q < r.automaton.states.length)
    (hstep : r.automaton.step q s.code = some next) :
    ∃ token later, tokens = token :: later ∧
      r.automaton.step q token.terminal.code ≠ none := by
  induction h generalizing s next with
  | nil => cases hs
  | token token kind later =>
    cases hs
    refine ⟨token, _, rfl, ?_⟩
    rw [kind]
    exact Option.ne_none_iff_exists'.2 ⟨next, hstep⟩
  | @node p _ _ _ _ _ _ _ mem below later ihBelow =>
    cases hs
    -- A production that stands inside a row begins with a symbol that derives something.
    have hground := Production.isGrounded_of_mem p mem
    simp only [Production.isGrounded, Bool.and_eq_true, Bool.or_eq_true] at hground
    obtain ⟨number, hnum⟩ := List.getElem?_of_mem mem
    have hrow := hr.rows hq hstep hnum
    obtain ⟨head, hhead, hin⟩ : ∃ head, p.rhs.head? = some head ∧ head.isInner = true := by
      have := hground.2.resolve_left (by simpa [Symbol.isInner] using hinner)
      simpa [Option.any_eq_true] using this
    obtain ⟨rest, hrhs⟩ := List.head?_eq_some_iff.1 hhead
    rw [hrhs, List.map_cons] at hrow
    obtain ⟨next', hstep', -⟩ := hrow
    obtain ⟨token, later, rfl, htoken⟩ := ihBelow hhead hin hstep'
    exact ⟨token, _, rfl, htoken⟩

/-- A terminal that can be shifted calls for no reduction. -/
theorem Reader.Serves.reduceBefore_eq_none (hr : r.Serves follow goals goal) {stack : Stack}
    {t : Terminal} {next : Nat} (hp : stack.Path r)
    (h : r.automaton.step (r.top stack) t.code = some next) : r.reduceBefore t stack = none := by
  have hlt := t.code_lt
  have := hr.consistent.shift (hp.top_lt hr) (by rw [hr.terminals_eq]; exact hlt)
    (by rw [hr.symbols_eq]; omega) h
  simp [Reader.reduceBefore, this]

/-- The steps that read what a row of symbols derives, before a token that can come after it. They
leave a frame for every symbol. -/
theorem Derives.runs (hr : r.Serves follow goals goal) {rhs : List Symbol}
    {values : Symbol.Values rhs} {start : Loc} {tokens : List Token}
    (h : Derives rhs values start tokens) {stack : Stack} (hp : stack.Path r)
    (hinner : rhs.tail.all Symbol.isInner = true) {after ends : Nat → Prop}
    (hrow : r.automaton.Admits follow after ends (r.top stack) (rhs.map Symbol.code))
    {token : Token} (hafter : after token.terminal.code) (remaining : List Token) :
    ∃ front : Stack, r.Runs (stack, tokens ++ token :: remaining)
        (front ++ stack, token :: remaining) ∧
      (front ++ stack).Path r ∧ Stack.pop rhs (front ++ stack) = some (values, start, stack) ∧
      ends (r.top (front ++ stack)) := by
  -- The induction is on the derivation. The stack below and the token behind are arbitrary: a
  -- production is derived on top of the frames before it, in front of what the later symbols
  -- derive.
  induction h generalizing stack after ends token remaining with
  | nil => exact ⟨[], .refl, hp, rfl, hrow⟩
  | @token t rest values start tokens first kind later ih =>
    subst kind
    obtain ⟨next, hstep, hrow, -⟩ := hrow
    have hinner' : rest.tail.all Symbol.isInner = true :=
      List.all_eq_true.2 fun s hs => List.all_eq_true.1 hinner s (List.mem_of_mem_tail hs)
    have hp' : Stack.Path r (⟨next, .terminal first.terminal, first, first.loc⟩ :: stack) :=
      ⟨hstep, hp⟩
    obtain ⟨front, hruns, hpath, hpop, hends⟩ := ih hp' hinner' hrow hafter remaining
    refine ⟨front ++ [⟨next, .terminal first.terminal, first, first.loc⟩], ?_, ?_, ?_, ?_⟩
    · rw [List.append_assoc]
      exact .head (.shift (hr.reduceBefore_eq_none hp hstep) hstep) hruns
    · simpa using hpath
    · simp [Stack.pop, hpop]
    · simpa using hends
  | @node p rest inner values start start' tokens tokens' mem below later ihBelow ihLater =>
    obtain ⟨next, hstep, hrow, hlast⟩ := hrow
    obtain ⟨number, hnum⟩ := List.getElem?_of_mem mem
    have hground := Production.isGrounded_of_mem p mem
    simp only [Production.isGrounded, Bool.and_eq_true] at hground
    have hinner' : rest.tail.all Symbol.isInner = true :=
      List.all_eq_true.2 fun s hs => List.all_eq_true.1 hinner s (List.mem_of_mem_tail hs)
    have hlhs : (Symbol.nonterminal p.lhs).code < r.automaton.grammar.symbols := by
      rw [hr.symbols_eq]; exact Symbol.code_lt _
    have hge : r.automaton.grammar.terminals ≤ (Symbol.nonterminal p.lhs).code := by
      rw [hr.terminals_eq]; exact Nat.le_add_right _ _
    -- The token behind what `p` derives can follow the left side of `p`.
    obtain ⟨ahead, remaining', hahead, hfollow⟩ : ∃ ahead remaining',
        tokens' ++ token :: remaining = ahead :: remaining' ∧
        (follow.get (r.automaton.place (r.top stack) (Symbol.nonterminal p.lhs).code)).testBit
          ahead.terminal.code = true := by
      cases rest with
      | nil =>
        cases later
        exact ⟨token, remaining, rfl, hlast hge rfl _ hafter⟩
      | cons s rest =>
        obtain ⟨next', hstep', -⟩ := hrow
        have hs : s.isInner = true := List.all_eq_true.1 hinner s List.mem_cons_self
        obtain ⟨ahead, tail, rfl, hshift⟩ :=
          later.first_shifts hr rfl hs (hr.step_target (hp.top_lt hr) hstep).2 hstep'
        refine ⟨ahead, _, rfl, ?_⟩
        exact hr.consistent.behind (hp.top_lt hr) hge hlhs hstep
          (by rw [hr.terminals_eq]; exact Terminal.code_lt _) hshift
    -- What `p` derives is read, its frames are taken off by the reduction, and one frame for its
    -- left side takes their place.
    obtain ⟨front, hruns, -, hpop, hends⟩ :=
      ihBelow hp hground.1 (hr.rows (hp.top_lt hr) hstep hnum) hfollow remaining'
    have hred : r.reduceBefore ahead.terminal (front ++ stack) =
        some (⟨next, .nonterminal p.lhs, p.build start inner, start⟩ :: stack) := by
      simp [Reader.reduceBefore, hends _ hfollow, hnum, Reader.reduce, hpop, hstep]
    have hp' : Stack.Path r (⟨next, .nonterminal p.lhs, p.build start inner, start⟩ :: stack) :=
      ⟨hstep, hp⟩
    obtain ⟨front', hruns', hpath', hpop', hends'⟩ := ihLater hp' hinner' hrow hafter remaining
    refine ⟨front' ++ [⟨next, .nonterminal p.lhs, p.build start inner, start⟩], ?_, ?_, ?_, ?_⟩
    · rw [List.append_assoc, List.append_assoc, hahead]
      refine hruns.trans (.head (.reduce hred) ?_)
      rw [← hahead]
      exact hruns'
    · simpa using hpath'
    · simp [Stack.pop, hpop']
    · simpa using hends'

/-- A reader accepts what its goal derives, and finds the value of the derivation. -/
theorem Reader.readAll_of_derives (hr : r.Serves follow goals goal)
    {v : Decoded goal.body.Value} {start : Loc} {tokens : List Token}
    (h : Derives [.nonterminal goal.body] (v, ()) start tokens) {last : Token}
    (hlast : last.terminal = .endOfText) :
    ∃ stack, r.readAll (tokens ++ [last]) [] = .ok stack ∧
      stack.pop [.nonterminal goal.body, .terminal .endOfText] =
        some ((v, last, ()), start, []) := by
  have hq : r.first < r.automaton.states.length :=
    Nat.lt_of_lt_of_le hr.first_lt hr.consistent.goals_le
  obtain ⟨next, hstep, hend⟩ := (hr.consistent.ends hq hr.first).2 rfl
  obtain ⟨final, hfinal⟩ := Option.ne_none_iff_exists'.1 hend
  have hadmits : r.automaton.Admits follow (· = Automaton.endCode) (· = next) r.first
      [(Symbol.nonterminal goal.body).code] := by
    refine ⟨next, hstep, rfl, ?_⟩
    rintro hge - t rfl
    exact hr.consistent.behind hq hge (by rw [hr.symbols_eq]; exact Symbol.code_lt _) hstep
      (by rw [hr.terminals_eq]; exact Terminal.code_lt _) hend
  have hafter : last.terminal.code = Automaton.endCode := by rw [hlast]; rfl
  have hempty : Stack.Path r [] := trivial
  obtain ⟨front, hruns, hpath, hpop, htop⟩ := h.runs hr hempty rfl hadmits hafter []
  rw [List.append_nil] at hruns hpath hpop htop
  have hshift : r.automaton.step (r.top front) last.terminal.code = some final := by
    rw [htop, hlast]; exact hfinal
  refine ⟨⟨final, .terminal last.terminal, last, last.loc⟩ :: front, ?_, ?_⟩
  · have hall := hruns.trans (.single (.shift (hr.reduceBefore_eq_none hpath hshift) hshift))
    exact Reader.readAll_of_runs hr hempty hall
  · obtain ⟨kind, text, offset, loc⟩ := last
    cases hlast
    rcases front with _ | ⟨frame, below⟩
    · cases hpop
    · by_cases hsymbol : frame.symbol = .nonterminal goal.body
      · simpa [Stack.pop, hsymbol] using hpop
      · simp [Stack.pop, hsymbol] at hpop

end

end Splice
