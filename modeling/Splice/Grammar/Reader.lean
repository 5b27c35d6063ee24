import Splice.Grammar.Lexer
import Splice.Grammar.Production

/-!
# Reading a text by its grammar

A reader runs an automaton over the tokens of a text and builds the nodes of the productions by
which it reduces. Its stack holds a frame for every symbol read so far. Before a token is taken,
the reader makes all reductions that the token calls for; if the token cannot be taken then, these
reductions have been made all the same, and the tokens that could stand in its place are found
from the stack as it is then.

* `Reader.settle`: the reductions before a token.
* `Reader.readAll`: reads a row of tokens, up to the first one that cannot stand where it is.
* `Reader.expected`: the terminals that could stand next.
-/

namespace Splice

/-- The automaton that reads programs. -/
def Automaton.programs : Automaton := .ofGrammar .host [(Symbol.nonterminal (.whole .program)).code]

/-- The automaton that reads single expressions and types. -/
def Automaton.fragments : Automaton :=
  .ofGrammar .host
    [(Symbol.nonterminal (.whole .expr)).code, (Symbol.nonterminal (.whole .type)).code]

/-- A symbol that was read, what it stands for, where it starts, and the state after it. -/
structure Frame where
  state : Nat
  symbol : Symbol
  value : symbol.Value
  start : Loc

/-- The symbols read so far, the last one first. -/
abbrev Stack := List Frame

namespace Stack

/-- Takes the symbols of a right side from the stack: what they stand for, where the first of them
starts, and the rest of the stack. -/
def pop : (rhs : List Symbol) → Stack → Option (Symbol.Values rhs × Loc × Stack)
  | [], stack => some ((), .start, stack)
  | s :: rest, stack =>
    match pop rest stack with
    | some (values, _, frame :: below) =>
      if h : frame.symbol = s then some ((h ▸ frame.value, values), frame.start, below) else none
    | _ => none

end Stack

/-- An automaton, and the state in which it begins. -/
structure Reader where
  automaton : Automaton
  first : Nat

namespace Reader

/-- The reader of a goal. -/
def ofGoal : Goal → Reader
  | .program => ⟨.programs, 0⟩
  | .expr => ⟨.fragments, 0⟩
  | .type => ⟨.fragments, 1⟩

/-- The state on top of a stack. -/
def top (r : Reader) : Stack → Nat
  | [] => r.first
  | frame :: _ => frame.state

/-- Reduces by a production, if its symbols are on top of the stack. -/
def reduce (r : Reader) (p : Production) (stack : Stack) : Option Stack := do
  let (values, start, below) ← stack.pop p.rhs
  let state ← r.automaton.step (r.top below) (Symbol.nonterminal p.lhs).code
  return ⟨state, .nonterminal p.lhs, p.build start values, start⟩ :: below

/-- The stack after the next reduction before a terminal, if there is one to be made. -/
def reduceBefore (r : Reader) (t : Terminal) (stack : Stack) : Option Stack := do
  let number ← r.automaton.reduction (r.top stack) t.code
  let p ← Production.all[number]?
  r.reduce p stack

/-- Makes reductions before a terminal, at most `fuel` of them. -/
def settleWithin (r : Reader) (t : Terminal) : (fuel : Nat) → Stack → Stack
  | 0, stack => stack
  | fuel + 1, stack =>
    match r.reduceBefore t stack with
    | some stack => settleWithin r t fuel stack
    | none => stack

/-- The most reductions that can be made on a stack before the next token: each one shortens the
stack or replaces its top by a nonterminal that it had not been before at this height, and an
empty stack may be given its first nonterminal. -/
def reductionBound (stack : Stack) : Nat := (stack.length + 2) * (Nonterminal.count + 1)

/-- Makes all reductions before a terminal. -/
def settle (r : Reader) (t : Terminal) (stack : Stack) : Stack :=
  r.settleWithin t (reductionBound stack) stack

/-- The state after a terminal that comes next, if it can. -/
def shift? (r : Reader) (t : Terminal) (stack : Stack) : Option Nat :=
  r.automaton.step (r.top stack) t.code

/-- Whether a terminal can come next, after the reductions that it calls for. The end of the text
is accepted by the last of these reductions, so it counts only where it calls for one. -/
def accepts (r : Reader) (stack : Stack) (t : Terminal) : Bool :=
  (r.shift? t (r.settle t stack)).isSome && (t != .endOfText || (r.shift? t stack).isNone)

/-- The terminals that can come next. -/
def expected (r : Reader) (stack : Stack) : List Terminal := Terminal.all.filter (r.accepts stack)

/-- Reads a row of tokens. If one of them cannot stand where it is, the answer is this token with
the stack that it was refused on. -/
def readAll (r : Reader) : List Token → Stack → Except (Token × Stack) Stack
  | [], stack => .ok stack
  | token :: rest, stack =>
    let settled := r.settle token.terminal stack
    match r.shift? token.terminal settled with
    | some state => readAll r rest (⟨state, .terminal token.terminal, token, token.loc⟩ :: settled)
    | none => .error (token, settled)

end Reader

end Splice
