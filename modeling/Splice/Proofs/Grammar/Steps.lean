import Mathlib.Logic.Relation
import Splice.Proofs.Grammar.Tables

/-!
# Reading in steps

A reader takes a step when it makes one reduction or shifts one token. `readAll` makes all
reductions before a token in one go, with a bound on their number; here the bound is shown to be
large enough, so `readAll` reads what can be read in steps.

* `Reader.Serves`: the automaton of a reader agrees with the host grammar.
* `Stack.Path`: the states of a stack follow one another in the automaton.
* `Stack.potential_reduceBefore`: every reduction lowers the potential of the stack.
* `Reader.readAll_of_runs`: `readAll` takes the steps to their end.
-/

namespace Splice

/-! ## Codes of symbols -/

theorem Terminal.code_lt (t : Terminal) : t.code < Terminal.count := by
  have h : t.code ∈ Terminal.all.map Terminal.code := List.mem_map_of_mem (Terminal.mem_all t)
  rwa [Terminal.code_all, List.mem_range] at h

theorem Nonterminal.code_lt (n : Nonterminal) : n.code < Nonterminal.count := by
  have h : n.code ∈ Nonterminal.all.map Nonterminal.code :=
    List.mem_map_of_mem (Nonterminal.mem_all n)
  rwa [Nonterminal.code_all, List.mem_range] at h

theorem Symbol.code_lt (s : Symbol) : s.code < Terminal.count + Nonterminal.count := by
  cases s with
  | terminal t => exact Nat.lt_of_lt_of_le t.code_lt (Nat.le_add_right _ _)
  | nonterminal n => exact Nat.add_lt_add_left n.code_lt _

/-! ## Paths -/

/-- The automaton of a reader agrees with the host grammar, and the reader begins where the reading
of a goal begins. -/
structure Reader.Serves (r : Reader) (follow : PackedTable) (goals : List Nat) (goal : Goal) :
    Prop where
  consistent : r.automaton.Consistent follow goals
  grammar : r.automaton.grammar = .host
  first : goals[r.first]? = some (Symbol.nonterminal goal.body).code

/-- Every frame has the state after the one below it. -/
def Stack.Path (r : Reader) : Stack → Prop
  | [] => True
  | frame :: below =>
    r.automaton.step (r.top below) frame.symbol.code = some frame.state ∧ Path r below

namespace Stack

theorem Path.of_append {r : Reader} {front below : Stack} (h : Path r (front ++ below)) :
    Path r below := by
  induction front with
  | nil => exact h
  | cons frame front ih => exact ih h.2

/-- What is taken off a stack is as many frames as the right side has symbols. -/
theorem pop_eq_append {rhs : List Symbol} {stack below : Stack} {values : Symbol.Values rhs}
    {start : Loc} (h : stack.pop rhs = some (values, start, below)) :
    ∃ front, stack = front ++ below ∧ front.length = rhs.length ∧
      front.map (·.symbol) = rhs.reverse := by
  induction rhs generalizing start below with
  | nil =>
    cases h
    exact ⟨[], rfl, rfl, rfl⟩
  | cons s rest ih =>
    rw [Stack.pop] at h
    split at h
    next later start' frame below' hrest =>
      split at h
      next hs =>
        cases h
        obtain ⟨front, rfl, hlen, hsym⟩ := ih hrest
        exact ⟨front ++ [frame], by simp, by simp [hlen], by simp [hsym, hs]⟩
      next => cases h
    next => cases h

end Stack

section Serves

variable {r : Reader} {follow : PackedTable} {goals : List Nat} {goal : Goal}

theorem Reader.Serves.symbols_eq (h : r.Serves follow goals goal) :
    r.automaton.grammar.symbols = Terminal.count + Nonterminal.count := by rw [h.grammar]; rfl

theorem Reader.Serves.terminals_eq (h : r.Serves follow goals goal) :
    r.automaton.grammar.terminals = Terminal.count := by rw [h.grammar]; rfl

theorem Reader.Serves.first_lt (h : r.Serves follow goals goal) : r.first < goals.length :=
  (List.getElem?_eq_some_iff.1 h.first).1

/-- A transition over a symbol leads to a state in which no reading begins. -/
theorem Reader.Serves.step_target (h : r.Serves follow goals goal) {q next : Nat} {s : Symbol}
    (hq : q < r.automaton.states.length) (hs : r.automaton.step q s.code = some next) :
    goals.length ≤ next ∧ next < r.automaton.states.length :=
  h.consistent.target hq (by rw [h.symbols_eq]; exact s.code_lt) hs

theorem Stack.Path.top_lt (h : r.Serves follow goals goal) {stack : Stack} (hp : stack.Path r) :
    r.top stack < r.automaton.states.length := by
  induction stack with
  | nil => exact Nat.lt_of_lt_of_le h.first_lt h.consistent.goals_le
  | cons frame below ih => exact (h.step_target (ih hp.2) hp.1).2

/-- A state in which a reading begins is only on top of the empty stack. -/
theorem Stack.Path.eq_nil (h : r.Serves follow goals goal) {stack : Stack} (hp : stack.Path r)
    (ht : r.top stack < goals.length) : stack = [] := by
  cases stack with
  | nil => rfl
  | cons frame below =>
    have := (h.step_target (hp.2.top_lt h) hp.1).1
    exact absurd ht (Nat.not_lt.2 this)

end Serves

/-! ## Every reduction lowers a potential -/

/-- How far up a nonterminal is in chains of productions with one symbol on the right. Most of
these lead to nonterminals with greater codes. -/
def Nonterminal.rank : Nonterminal → Nat
  | .templateArgs => 37
  | .templateArg | .args => 36
  | .typeSuffixes => 3
  | n => Nonterminal.count - n.code

/-- Terminals are at the bottom of such chains. -/
def Symbol.rank : Symbol → Nat
  | .terminal _ => 0
  | .nonterminal n => n.rank

theorem Nonterminal.rank_le (n : Nonterminal) : n.rank ≤ Nonterminal.count := by
  cases n <;> simp [rank, Nonterminal.count]

/-- A production with one symbol on the right leads up. -/
def Production.climbs (p : Production) : Bool :=
  match p.rhs with
  | [s] => decide (s.rank < p.lhs.rank)
  | _ => true

theorem Production.climbs_of_mem : ∀ p ∈ Production.all, p.climbs = true := by decide +kernel

/-- A bound on the number of reductions that can be made on a stack. -/
def Stack.potential : Stack → Nat
  | [] => 2 * (Nonterminal.count + 1)
  | frame :: below =>
    (below.length + 1) * (Nonterminal.count + 1) + (Nonterminal.count - frame.symbol.rank)

theorem Stack.potential_le (stack : Stack) : stack.potential ≤ Reader.reductionBound stack := by
  cases stack with
  | nil => exact Nat.le_refl _
  | cons frame below =>
    simp only [potential, Reader.reductionBound, List.length_cons, Nat.add_mul]
    omega

section Serves

variable {r : Reader} {follow : PackedTable} {goals : List Nat} {goal : Goal}

theorem Grammar.host_rule {number : Nat} {p : Production}
    (h : Production.all[number]? = some p) : Grammar.host.rules[number]? = some p.rule := by
  simp [Grammar.host, h]

/-- What a reduction does. -/
theorem Reader.reduce_eq_some {p : Production} {stack stack' : Stack}
    (h : r.reduce p stack = some stack') :
    ∃ values start below state, stack.pop p.rhs = some (values, start, below) ∧
      r.automaton.step (r.top below) (Symbol.nonterminal p.lhs).code = some state ∧
      stack' = ⟨state, .nonterminal p.lhs, p.build start values, start⟩ :: below := by
  simp only [Reader.reduce, Option.bind_eq_bind, Option.bind_eq_some_iff] at h
  obtain ⟨⟨values, start, below⟩, hpop, state, hstep, h⟩ := h
  exact ⟨values, start, below, state, hpop, hstep, (Option.some.inj h).symm⟩

theorem Reader.reduceBefore_eq_some {t : Terminal} {stack stack' : Stack}
    (h : r.reduceBefore t stack = some stack') :
    ∃ number p, r.automaton.reduction (r.top stack) t.code = some number ∧
      Production.all[number]? = some p ∧ r.reduce p stack = some stack' := by
  simp only [Reader.reduceBefore, Option.bind_eq_bind, Option.bind_eq_some_iff] at h
  obtain ⟨number, hred, p, hp, h⟩ := h
  exact ⟨number, p, hred, hp, h⟩

theorem Stack.Path.reduceBefore {t : Terminal} {stack stack' : Stack} (hp : stack.Path r)
    (h : r.reduceBefore t stack = some stack') : stack'.Path r := by
  obtain ⟨number, p, -, -, h⟩ := Reader.reduceBefore_eq_some h
  obtain ⟨values, start, below, state, hpop, hstep, rfl⟩ := Reader.reduce_eq_some h
  obtain ⟨front, rfl, -⟩ := Stack.pop_eq_append hpop
  exact ⟨hstep, hp.of_append⟩

/-- A frame in the place of several others, or of one with a symbol of lower rank, lowers the
potential. -/
theorem Stack.potential_cons_lt {front below : Stack} {frame : Frame}
    (hrank : frame.symbol.rank ≤ Nonterminal.count)
    (h : 2 ≤ front.length ∨ ∃ top, front = [top] ∧ top.symbol.rank < frame.symbol.rank) :
    Stack.potential (frame :: below) < Stack.potential (front ++ below) := by
  rcases h with hlen | ⟨top, rfl, hlt⟩
  · rcases front with _ | ⟨top, _ | ⟨second, front⟩⟩
    · cases hlen
    · simp at hlen
    · simp only [potential, List.cons_append, List.length_cons, List.length_append, Nat.add_mul]
      omega
  · simp only [potential, List.cons_append, List.nil_append]
    omega

theorem Stack.potential_reduceBefore (hr : r.Serves follow goals goal) {t : Terminal}
    {stack stack' : Stack} (hp : stack.Path r) (h : r.reduceBefore t stack = some stack') :
    stack'.potential < stack.potential := by
  obtain ⟨number, p, hred, hnum, h⟩ := Reader.reduceBefore_eq_some h
  obtain ⟨values, start, below, state, hpop, hstep, rfl⟩ := Reader.reduce_eq_some h
  obtain ⟨front, rfl, hlen, hsym⟩ := Stack.pop_eq_append hpop
  have hrank := p.lhs.rank_le
  -- The right side has no symbol, or one, or several.
  rcases front with _ | ⟨top, front⟩
  · have hrhs : p.rhs = [] := List.length_eq_zero_iff.1 hlen.symm
    have hempty := hr.consistent.empty (hp.top_lt hr)
      (by rw [hr.terminals_eq]; exact t.code_lt) hred
      (by rw [hr.grammar]; exact Grammar.host_rule hnum) (by simp [Production.rule, hrhs])
    have hnil := hp.eq_nil hr hempty
    rw [List.nil_append] at hnil ⊢
    subst hnil
    simp only [potential, List.length_nil]
    omega
  · refine potential_cons_lt hrank ?_
    rcases front with _ | ⟨second, front⟩
    · have hrhs : p.rhs = [top.symbol] := by simpa using congrArg List.reverse hsym.symm
      have hclimb := Production.climbs_of_mem p (List.mem_of_getElem? hnum)
      simp only [Production.climbs, hrhs, decide_eq_true_eq] at hclimb
      exact .inr ⟨top, rfl, hclimb⟩
    · exact .inl (by simp)

/-! ## Settling -/

theorem Reader.settleWithin_eq (hr : r.Serves follow goals goal) {t : Terminal} {n m : Nat}
    {stack : Stack} (hp : stack.Path r) (hn : stack.potential ≤ n) (hm : stack.potential ≤ m) :
    r.settleWithin t n stack = r.settleWithin t m stack := by
  induction n generalizing m stack with
  | zero =>
    cases m with
    | zero => rfl
    | succ m =>
      rw [settleWithin, settleWithin]
      split
      next stack' h =>
        have := Stack.potential_reduceBefore hr hp h
        omega
      next => rfl
  | succ n ih =>
    rw [settleWithin]
    cases h : r.reduceBefore t stack with
    | none =>
      cases m with
      | zero => rfl
      | succ m => simp only [settleWithin, h]
    | some stack' =>
      have hlt := Stack.potential_reduceBefore hr hp h
      cases m with
      | zero => omega
      | succ m =>
        simp only [settleWithin, h]
        exact ih (hp.reduceBefore h) (by omega) (by omega)

theorem Reader.settle_of_none {t : Terminal} {stack : Stack} (h : r.reduceBefore t stack = none) :
    r.settle t stack = stack := by
  unfold settle
  cases reductionBound stack with
  | zero => rfl
  | succ n => simp only [settleWithin, h]

/-- A reduction before settling makes no difference. -/
theorem Reader.settle_reduceBefore (hr : r.Serves follow goals goal) {t : Terminal}
    {stack stack' : Stack} (hp : stack.Path r) (h : r.reduceBefore t stack = some stack') :
    r.settle t stack = r.settle t stack' := by
  have hlt := Stack.potential_reduceBefore hr hp h
  have hle := stack.potential_le
  unfold settle
  cases hb : reductionBound stack with
  | zero => omega
  | succ n =>
    simp only [settleWithin, h]
    exact settleWithin_eq hr (hp.reduceBefore h) (by omega) stack'.potential_le

/-! ## Steps -/

/-- One reduction or one token. -/
inductive Reader.Step (r : Reader) : Stack × List Token → Stack × List Token → Prop
  | reduce {stack stack' : Stack} {token : Token} {rest : List Token}
      (h : r.reduceBefore token.terminal stack = some stack') :
      Reader.Step r (stack, token :: rest) (stack', token :: rest)
  | shift {stack : Stack} {token : Token} {rest : List Token} {state : Nat}
      (settled : r.reduceBefore token.terminal stack = none)
      (h : r.shift? token.terminal stack = some state) :
      Reader.Step r (stack, token :: rest)
        (⟨state, .terminal token.terminal, token, token.loc⟩ :: stack, rest)

/-- Any number of steps. -/
abbrev Reader.Runs (r : Reader) : Stack × List Token → Stack × List Token → Prop :=
  Relation.ReflTransGen (Reader.Step r)

/-- The stack on which the steps over all tokens end is the one that `readAll` finds. -/
theorem Reader.readAll_of_runs (hr : r.Serves follow goals goal) {start : Stack × List Token}
    {stack' : Stack} (hp : start.1.Path r) (h : r.Runs start (stack', [])) :
    r.readAll start.2 start.1 = .ok stack' := by
  induction h using Relation.ReflTransGen.head_induction_on with
  | refl => rfl
  | head hstep _ ih =>
    cases hstep with
    | reduce h =>
      have ih := ih (hp.reduceBefore h)
      simp only [readAll, settle_reduceBefore hr hp h] at ih ⊢
      exact ih
    | shift settled h =>
      simp only [readAll, settle_of_none settled, h]
      exact ih ⟨h, hp⟩

end Serves

end Splice
