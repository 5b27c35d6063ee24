import Splice.Parse.Tree
import Splice.Proofs.Grammar.Completeness
import Splice.Proofs.Grammar.HostTables

/-!
# Parsing is deriving

A text is parsed exactly if its tokens are derived from the goal, and the result is the value of
the derivation. So there is one derivation at most up to its value.

* `Reader.covers_readAll`: what was read is derived, whatever the tables are.
* `readShape_eq_ok_iff`, `parse_eq_ok_iff`, `parse_eq_literal_iff`: the results of parsing in
  terms of derivations.
-/

namespace Splice

section Soundness

variable {r : Reader} {stack stack' : Stack} {tokens : List Token}

theorem Reader.covers_reduceBefore {t : Terminal} (hc : stack.Covers tokens)
    (h : r.reduceBefore t stack = some stack') : stack'.Covers tokens := by
  obtain ⟨number, p, -, hp, h⟩ := reduceBefore_eq_some h
  obtain ⟨values, start, below, state, hpop, -, rfl⟩ := reduce_eq_some h
  obtain ⟨front, back, rfl, hbelow, hder⟩ := hc.pop hpop
  exact .push hbelow (.single_node (List.mem_of_getElem? hp) hder)

/-- What one reduction keeps, all reductions before a token keep. -/
theorem Reader.settle_induction {P : Stack → Prop} {t : Terminal}
    (hstep : ∀ s s', P s → r.reduceBefore t s = some s' → P s') (h : P stack) :
    P (r.settle t stack) := by
  unfold settle
  generalize reductionBound stack = fuel
  induction fuel generalizing stack with
  | zero => exact h
  | succ fuel ih =>
    rw [settleWithin]
    split
    next stack' hred => exact ih (hstep _ _ h hred)
    next => exact h

/-- The stack after a row of tokens covers them. -/
theorem Reader.covers_readAll {later : List Token} (hc : stack.Covers tokens)
    (h : r.readAll later stack = .ok stack') : stack'.Covers (tokens ++ later) := by
  induction later generalizing stack tokens with
  | nil =>
    cases h
    rwa [List.append_nil]
  | cons token rest ih =>
    have hsettled : Stack.Covers (r.settle token.terminal stack) tokens :=
      settle_induction (fun _ _ => covers_reduceBefore) hc
    rw [readAll] at h
    split at h
    next state _ =>
      rw [List.append_cons]
      exact ih (.push hsettled (.single_token token rfl)) h
    next => cases h

theorem Reader.path_readAll {later : List Token} (hp : stack.Path r)
    (h : r.readAll later stack = .ok stack') : stack'.Path r := by
  induction later generalizing stack with
  | nil =>
    cases h
    exact hp
  | cons token rest ih =>
    have hsettled : Stack.Path r (r.settle token.terminal stack) :=
      settle_induction (fun _ _ => Stack.Path.reduceBefore) hp
    rw [readAll] at h
    split at h
    next state hshift =>
      have hp' : Stack.Path r (⟨state, .terminal token.terminal, token, token.loc⟩ ::
          r.settle token.terminal stack) := ⟨hshift, hsettled⟩
      exact ih hp' h
    next => cases h

/-- A reader accepts only what its goal derives. -/
theorem Reader.derives_of_readAll {follow : PackedTable} {goals : List Nat} {goal : Goal}
    (hr : r.Serves follow goals goal) {last token : Token} {v : Decoded goal.body.Value}
    {start : Loc} {below : Stack} (h : r.readAll (tokens ++ [last]) [] = .ok stack)
    (hpop : stack.pop [.nonterminal goal.body, .terminal .endOfText] =
      some ((v, token, ()), start, below)) :
    Derives [.nonterminal goal.body] (v, ()) start tokens := by
  have hcovers := covers_readAll .empty h
  have hempty : Stack.Path r [] := trivial
  have hpath := path_readAll hempty h
  obtain ⟨front, rfl, -, hsymbols⟩ := Stack.pop_eq_append hpop
  -- Where the end of the text can be shifted behind the goal, nothing was read before.
  have hbelow : below = [] := by
    rcases front with _ | ⟨upper, _ | ⟨lower, _ | ⟨_, _⟩⟩⟩ <;> simp at hsymbols
    obtain ⟨hupper, hlower⟩ := hsymbols
    obtain ⟨hend, hgoal, hrest⟩ := hpath
    rw [hupper] at hend
    rw [hlower] at hgoal
    have hfirst := (hr.consistent.ends (Stack.Path.top_lt hr hrest) hr.first).1
      ⟨_, hgoal, Option.ne_none_iff_exists'.2 ⟨_, hend⟩⟩
    exact Stack.Path.eq_nil hr hrest (hfirst ▸ hr.first_lt)
  obtain ⟨bottom, read, htokens, hbottom, hder⟩ := hcovers.pop hpop
  subst hbelow
  cases hbottom
  obtain ⟨own, back, start', rfl, hown, hback⟩ := hder.uncons
  cases hback with
  | token token kind later =>
    cases later
    rw [List.nil_append, List.nil_append] at htokens
    obtain ⟨rfl, -⟩ := List.append_inj' htokens rfl
    exact hown

end Soundness

/-- The reader of each goal has tables that agree with the grammar. -/
theorem Reader.serves_ofGoal (goal : Goal) :
    ∃ follow goals, (Reader.ofGoal goal).Serves follow goals goal := by
  cases goal with
  | program => exact ⟨_, _, Automaton.consistent_of_check Automaton.check_programs, rfl, rfl⟩
  | expr => exact ⟨_, _, Automaton.consistent_of_check Automaton.check_fragments, rfl, rfl⟩
  | type => exact ⟨_, _, Automaton.consistent_of_check Automaton.check_fragments, rfl, rfl⟩

section Parse

variable {goal : Goal} {source : Text}

theorem readShape_eq_ok_iff {v : Decoded goal.body.Value} :
    readShape goal source = .ok v ↔ (Lexed.ofText source).fault = none ∧
      ∃ start, Derives [.nonterminal goal.body] (v, ()) start (Lexed.ofText source).tokens := by
  obtain ⟨follow, goals, hr⟩ := Reader.serves_ofGoal goal
  constructor
  · intro h
    simp only [readShape] at h
    split at h
    next => split at h <;> cases h
    next hfault =>
      refine ⟨hfault, ?_⟩
      split at h
      next stack hread =>
        split at h
        next node token rest hpop =>
          cases h
          exact ⟨_, Reader.derives_of_readAll hr hread hpop⟩
        next => cases h
      next => cases h
  · rintro ⟨hfault, start, h⟩
    have hlast : (endToken (Lexed.ofText source).tokens).terminal = .endOfText := by
      unfold endToken
      split <;> rfl
    obtain ⟨stack, hread, hpop⟩ := Reader.readAll_of_derives hr h hlast
    simp only [readShape, hfault, hread, hpop]

theorem parse_eq_ok_iff {v : goal.body.Value} :
    parse goal source = .ok v ↔ (Lexed.ofText source).fault = none ∧
      ∃ start, Derives [.nonterminal goal.body] (.ok v, ()) start (Lexed.ofText source).tokens := by
  rw [← readShape_eq_ok_iff, parse]
  cases readShape goal source with
  | error e => simp
  | ok v => cases v <;> simp

theorem parse_eq_literal_iff {fault : LiteralFault} :
    parse goal source = .error (.literal fault) ↔ (Lexed.ofText source).fault = none ∧
      ∃ start, Derives [.nonterminal goal.body] (.error fault, ()) start
        (Lexed.ofText source).tokens := by
  rw [← readShape_eq_ok_iff, parse]
  cases readShape goal source with
  | error e => simp
  | ok v => cases v <;> simp

end Parse

end Splice
