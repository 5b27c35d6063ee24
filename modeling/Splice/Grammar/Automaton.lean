import Splice.Grammar.PackedTable

/-!
# The automaton of a grammar

The pushdown automaton that reads a grammar from left to right with one token of lookahead. The
symbols of the grammar are numbers here, the terminals first. An item is a rule with a position in
its right side, and a state is the set of items that may be under way at a point of the text. A
state may reduce by a rule before a terminal if, somewhere, the terminal can follow the rule's
nonterminal where this began. Nothing may stand behind a nonterminal that can be empty but
terminals, so what follows a nonterminal inside a rule begins with a terminal of that state.

* `Items.successors`: the states after a state.
* `Search.run`: all states that can be reached, with their transitions.
* `Automaton.follow`: which terminals can follow a nonterminal that begins in a state.
* `Automaton.ofGrammar`: the automaton.
-/

namespace Splice

-- Powers and sums are the core library's own, also where there are other instances for them.
attribute [local instance (high)] instPowNat Zero.ofOfNat0

/-- A production without its node. -/
structure Rule where
  lhs : Nat
  rhs : List Nat
deriving DecidableEq, Inhabited

/-- A grammar with numbered symbols. -/
structure Grammar where
  /-- The symbols below this number are the terminals. -/
  terminals : Nat
  symbols : Nat
  rules : List Rule
deriving DecidableEq, Inhabited

/-! ## Items -/

/-- A set of items, written as a number: the bit at an item's number tells whether it is in. -/
abbrev ItemSet := Nat

/-- The number of items of rules. -/
def itemCount (rules : List Rule) : Nat := (rules.map fun r => r.rhs.length + 1).sum

/-- The items of a grammar. They are numbered in the order of the rules, those of one rule from
left to right. -/
structure Items where
  /-- For every item the symbol that is next plus one, or zero at the end of a rule. -/
  next : PackedTable
  /-- For every symbol the items in which it is next. -/
  before : PackedTable
  /-- For every nonterminal the items that begin with it: the first items of its rules, and of the
  rules of the nonterminals with which these start. -/
  opens : PackedTable
deriving DecidableEq, Inhabited

namespace Items

/-- Enters the items of a right side from the number `item` on. -/
def enterRhs (items : Items) (item : Nat) : List Nat → Items
  | [] => items
  | s :: rest =>
    enterRhs { items with
      next := items.next.add item (s + 1), before := items.before.add s (1 <<< item) }
      (item + 1) rest

/-- Enters the items of rules from the number `item` on. Every nonterminal opens the first items
of its own rules. -/
def enterRules (items : Items) (item : Nat) : List Rule → Items
  | [] => items
  | r :: rest =>
    enterRules ({ items with opens := items.opens.add r.lhs (1 <<< item) }.enterRhs item r.rhs)
      (item + r.rhs.length + 1) rest

/-- The nonterminals with which the rules of nonterminals start, as pairs. -/
def leftCorners (g : Grammar) : List (Nat × Nat) :=
  g.rules.filterMap fun r => match r.rhs with
    | s :: _ => if g.terminals.ble s then some (r.lhs, s) else none
    | [] => none

/-- The items of a grammar. -/
def ofGrammar (g : Grammar) : Items :=
  let width := itemCount g.rules
  let none : Items := ⟨.empty (g.symbols.log2 + 1), .empty width, .empty width⟩
  let items := none.enterRules 0 g.rules
  { items with opens := items.opens.settle (leftCorners g) g.symbols }

/-- The items that begin where an item is under way. -/
def openedBy (items : Items) (item : Nat) : ItemSet :=
  match items.next.get item with
  | 0 => 0
  | symbol + 1 => items.opens.get symbol

/-- Adds to a set what its items begin. -/
def close (items : Items) (s : ItemSet) : ItemSet :=
  (membersOf items.before.width s).foldl (fun acc item => acc ||| items.openedBy item) s

/-- The states after the items of a set, each with the symbol that leads to it: the items in which
the symbol was next, moved on by one position, and what these begin. The items are dealt with
symbol by symbol, and those that were dealt with leave the set. -/
def successorsFrom (items : Items) : List Nat → ItemSet → List (Nat × ItemSet)
  | [], _ => []
  | item :: rest, s =>
    if (s &&& 1 <<< item).beq 0 then successorsFrom items rest s
    else match items.next.get item with
      | 0 => successorsFrom items rest s
      | symbol + 1 =>
        let here := s &&& items.before.get symbol
        (symbol, items.close (here <<< 1)) :: successorsFrom items rest (s ^^^ here)

/-- The states after a state, each with the symbol that leads to it. -/
def successors (items : Items) (s : ItemSet) : List (Nat × ItemSet) :=
  items.successorsFrom (membersOf items.before.width s) s

/-- The state in which the rules of a nonterminal begin. -/
def initial (items : Items) (nonterminal : Nat) : ItemSet := items.opens.get nonterminal

end Items

/-! ## States -/

/-- The states that were found, by their sets of items. -/
inductive StateTree
  | leaf
  | node (items : ItemSet) (number : Nat) (less greater : StateTree)
deriving Inhabited

namespace StateTree

/-- The number of a state. -/
def find? (s : ItemSet) : StateTree → Option Nat
  | leaf => none
  | node items number less greater =>
    if s.beq items then some number
    else if s.ble items then less.find? s else greater.find? s

/-- Gives a number to a state that has none. -/
def insert (s : ItemSet) (n : Nat) : StateTree → StateTree
  | leaf => node s n leaf leaf
  | node items number less greater =>
    if s.ble items then node items number (less.insert s n) greater
    else node items number less (greater.insert s n)

end StateTree

/-- A state, and the symbols over which it can be left with the numbers of the states after it. -/
structure State where
  items : ItemSet
  next : List (Nat × Nat)
deriving DecidableEq, Inhabited

/-- What is known while all states are searched for: the states found, how many they are, and
those whose successors are still to be looked for, in the order of their numbers. -/
structure Search where
  found : StateTree
  count : Nat
  pending : List ItemSet
deriving Inhabited

namespace Search

/-- Numbers a state, if it is a new one. -/
def visit (search : Search) (s : ItemSet) : Search × Nat :=
  match search.found.find? s with
  | some number => (search, number)
  | none =>
    (⟨search.found.insert s search.count, search.count + 1, search.pending ++ [s]⟩, search.count)

/-- Numbers the first states. -/
def begin (search : Search) : List ItemSet → Search
  | [] => search
  | s :: rest => begin (search.visit s).1 rest

/-- Numbers the states after a state. -/
def visitAll (search : Search) : List (Nat × ItemSet) → Search × List (Nat × Nat)
  | [] => (search, [])
  | (symbol, s) :: rest =>
    let (search, number) := search.visit s
    let (search, later) := visitAll search rest
    (search, (symbol, number) :: later)

/-- The states that are pending and those that they lead to. `fuel` bounds their number. -/
def run (items : Items) : (fuel : Nat) → Search → List State
  | 0, _ => []
  | fuel + 1, search =>
    match search.pending with
    | [] => []
    | s :: pending =>
      let (search, next) := visitAll { search with pending } (items.successors s)
      ⟨s, next⟩ :: run items fuel search

end Search

/-! ## The automaton -/

/-- The automaton of a grammar. The states in which the goals begin come first. -/
structure Automaton where
  grammar : Grammar
  states : List State
  /-- For a state and a symbol the number of the state after it plus one, or zero. -/
  steps : PackedTable
  /-- For a state and a terminal the number of the rule to reduce by plus one, or zero. -/
  reductions : PackedTable
deriving DecidableEq, Inhabited

namespace Automaton

/-- The state after `state` over a symbol. -/
def step (a : Automaton) (state symbol : Nat) : Option Nat :=
  match a.steps.get (state * a.grammar.symbols + symbol) with
  | 0 => none
  | n + 1 => some n

/-- The state after `state` over a row of symbols. -/
def walk (a : Automaton) : Nat → List Nat → Option Nat
  | state, [] => some state
  | state, s :: rest =>
    match a.step state s with
    | some next => walk a next rest
    | none => none

/-- The rule by which to reduce in a state before a terminal, by number. -/
def reduction (a : Automaton) (state terminal : Nat) : Option Nat :=
  match a.reductions.get (state * a.grammar.terminals + terminal) with
  | 0 => none
  | n + 1 => some n

/-- Enters the transitions of states, the first of which has the number `state`. -/
def enterSteps (symbols : Nat) (t : PackedTable) (state : Nat) : List State → PackedTable
  | [] => t
  | s :: rest =>
    enterSteps symbols
      (s.next.foldl (fun (t : PackedTable) (symbol, next) =>
        t.add (state * symbols + symbol) (next + 1)) t)
      (state + 1) rest

/-! ### What can follow a nonterminal -/

/-- A nonterminal that begins in a state. -/
structure Begin where
  state : Nat
  nonterminal : Nat
deriving DecidableEq, Inhabited

/-- The terminals over which a state can be left, as a set. -/
def terminalsFrom (g : Grammar) (s : State) : Nat :=
  s.next.foldl (fun acc (symbol, _) =>
    if symbol.blt g.terminals then acc ||| 1 <<< symbol else acc) 0

/-- All places where a nonterminal begins, in states of which the first has the number `state`. -/
def beginsFrom (g : Grammar) (state : Nat) : List State → List Begin
  | [] => []
  | s :: rest =>
    ((s.next.filter fun (symbol, _) => g.terminals.ble symbol).map
      fun (symbol, _) => ⟨state, symbol⟩) ++ beginsFrom g (state + 1) rest

/-- All places where a nonterminal begins. -/
def begins (a : Automaton) : List Begin := beginsFrom a.grammar 0 a.states

/-- The entry for a nonterminal that begins in a state. -/
def place (a : Automaton) (state nonterminal : Nat) : Nat :=
  state * (a.grammar.symbols - a.grammar.terminals) + (nonterminal - a.grammar.terminals)

/-- The rules of a nonterminal, by number. -/
def rulesOf (g : Grammar) (nonterminal : Nat) : List (Rule × Nat) :=
  g.rules.zipIdx.filter fun (r, _) => r.lhs.beq nonterminal

/-- What stands right behind a nonterminal: the terminals of the state after it. -/
def direct (a : Automaton) (leaving : PackedTable) (b : Begin) : Nat :=
  (a.step b.state b.nonterminal).elim 0 leaving.get

/-- The nonterminals at the ends of the rules of a nonterminal, where they begin. Whatever follows
the nonterminal follows these too. -/
def lastBegins (a : Automaton) : Begin → List Begin
  | ⟨state, nonterminal⟩ => (rulesOf a.grammar nonterminal).filterMap fun (r, _) =>
    match r.rhs.reverse with
    | [] => none
    | last :: front =>
      if a.grammar.terminals.ble last then
        (a.walk state front.reverse).map fun q => ⟨q, last⟩
      else none

/-- For every begin the set of terminals that can follow its nonterminal there. -/
def follow (a : Automaton) : PackedTable :=
  let leaving := a.states.zipIdx.foldl
    (fun (t : PackedTable) (s, state) => t.add state (terminalsFrom a.grammar s))
    (.empty a.grammar.terminals)
  let begins := a.begins
  let first := begins.foldl
    (fun (t : PackedTable) b => t.add (a.place b.state b.nonterminal) (a.direct leaving b))
    (.empty a.grammar.terminals)
  let pairs := begins.flatMap fun b => (a.lastBegins b).map fun last =>
    (a.place last.state last.nonterminal, a.place b.state b.nonterminal)
  first.settle pairs begins.length

/-! ### Reductions -/

/-- The ends of the rules of all nonterminals: for each the state, the number of the rule, and the
terminals that can follow. -/
def endings (a : Automaton) (follow : PackedTable) : List (Nat × Nat × Nat) :=
  a.begins.flatMap fun ⟨state, nonterminal⟩ =>
    (rulesOf a.grammar nonterminal).filterMap fun (r, number) =>
      (a.walk state r.rhs).map fun q => (q, number, follow.get (a.place state nonterminal))

/-- The lookahead sets of the rules that end in states, and the entries of these, each once. -/
structure Lookahead where
  sets : PackedTable
  ends : List (Nat × Nat)
deriving Inhabited

namespace Lookahead

/-- Adds the terminals of endings to the lookahead sets of their states and rules. -/
def joinAll (rules : Nat) (l : Lookahead) : List (Nat × Nat × Nat) → Lookahead
  | [] => l
  | (state, number, set) :: rest =>
    let entry := state * rules + number
    let known := l.sets.get entry
    if (set &&& known).beq set then joinAll rules l rest
    else
      let ends := if known.beq 0 then (state, number) :: l.ends else l.ends
      joinAll rules ⟨l.sets.add entry set, ends⟩ rest

end Lookahead

/-- The lookahead sets of an automaton. -/
def lookahead (a : Automaton) : Lookahead :=
  Lookahead.joinAll a.grammar.rules.length ⟨.empty a.grammar.terminals, []⟩ (a.endings a.follow)

/-- The table of reductions: before each terminal of its lookahead set a rule is reduced. -/
def reductionTable (a : Automaton) : PackedTable :=
  let l := a.lookahead
  l.ends.foldl
    (fun (t : PackedTable) (state, number) =>
      (membersOf a.grammar.terminals (l.sets.get (state * a.grammar.rules.length + number))).foldl
        (fun (t : PackedTable) terminal =>
          t.add (state * a.grammar.terminals + terminal) (number + 1)) t)
    (.empty (a.grammar.rules.length.log2 + 1))

/-- The automaton that reads each of some nonterminals of a grammar, before it is known where rules
are reduced. There are no more states than sets of items. -/
def shifting (g : Grammar) (goals : List Nat) : Automaton :=
  let items := Items.ofGrammar g
  let search : Search := ⟨.leaf, 0, []⟩
  let states := (search.begin (goals.map items.initial)).run items
    (2 ^ itemCount g.rules)
  let steps := enterSteps g.symbols (.empty (states.length.log2 + 1)) 0 states
  { grammar := g, states, steps, reductions := .empty 0 }

/-- The automaton that reads each of some nonterminals of a grammar. -/
def ofGrammar (g : Grammar) (goals : List Nat) : Automaton :=
  let a := shifting g goals
  { a with reductions := a.reductionTable }

end Automaton

end Splice
