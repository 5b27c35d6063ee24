import Splice.Literal.Value
import Splice.Syntax.Node

/-!
# Symbols of the grammar

Terminals and nonterminals, and the type of what each of them stands for. What a nonterminal
stands for depends on the values of the literals in it, so it is a `Decoded` node: the shape of a
text is settled before the values of its literals are.
-/

namespace Splice

/-- What stands behind a type. -/
inductive TypeSuffix
  | pointer
  | slice
  | array (size : Node)
deriving Inhabited

/-- What a text can be read as. -/
inductive Goal
  | program | expr | type
deriving DecidableEq, Inhabited

/-- The nonterminals. Lists of at least one item have a nonterminal of their own, as do the
levels of binding strength. -/
inductive Nonterminal
  /-- A whole text, up to its end. -/
  | whole (goal : Goal)
  | program
  | statements | statement
  | declaration | function | giveBack | evaluation | block
  | params | moreParams | param
  | expr | disjunction | conjunction | comparison | sum | term | unary | suffixed | primary
  | args | moreArgs
  | templateArgs | moreTemplateArgs | templateArg | typeOnly
  | type | typeBase | builtinType | qualifiedType
  | qualifiedName | moreNames
  | typeSuffix | typeSuffixes
deriving DecidableEq, Inhabited

namespace Goal

/-- The nonterminal that a text of this goal consists of. -/
def body : Goal → Nonterminal
  | program => .program
  | expr => .expr
  | type => .type

end Goal

namespace Nonterminal

/-- All nonterminals. -/
def all : List Nonterminal :=
  [.whole .program, .whole .expr, .whole .type,
   .program, .statements, .statement, .declaration, .function, .giveBack, .evaluation, .block,
   .params, .moreParams, .param,
   .expr, .disjunction, .conjunction, .comparison, .sum, .term, .unary, .suffixed, .primary,
   .args, .moreArgs, .templateArgs, .moreTemplateArgs, .templateArg, .typeOnly,
   .type, .typeBase, .builtinType, .qualifiedType, .qualifiedName, .moreNames,
   .typeSuffix, .typeSuffixes]

/-- What a nonterminal stands for. -/
def Value : Nonterminal → Type
  | whole .program | program => Program
  | statements | params | moreParams | args | moreArgs | templateArgs | moreTemplateArgs =>
    List Node
  | qualifiedName | moreNames => Text
  | typeSuffix => TypeSuffix
  | typeSuffixes => List TypeSuffix
  | _ => Node

/-- The number of nonterminals. -/
def count : Nat := 37

/-- The place of a nonterminal in the list of all. -/
def code : Nonterminal → Nat
  | whole goal => goal.ctorIdx
  | n => 2 + n.ctorIdx

theorem code_all : all.map code = List.range count := by decide

theorem mem_all (n : Nonterminal) : n ∈ all := by
  cases n with
  | whole goal => cases goal <;> decide
  | _ => decide

end Nonterminal

/-- A symbol of the grammar. -/
inductive Symbol
  | terminal (t : Terminal)
  | nonterminal (n : Nonterminal)
deriving DecidableEq, Inhabited

namespace Symbol

/-- The symbol of a keyword. -/
abbrev word (k : Keyword) : Symbol := .terminal (.keyword k)

/-- The symbol of a mark. -/
abbrev mark (m : Mark) : Symbol := .terminal (.mark m)

/-- What a symbol stands for: a token, or the value of a nonterminal. -/
abbrev Value : Symbol → Type
  | terminal _ => Token
  | nonterminal n => Decoded n.Value

/-- What a row of symbols stands for. -/
abbrev Values : List Symbol → Type
  | [] => Unit
  | s :: rest => s.Value × Values rest

/-- The number of a symbol, terminals first. -/
def code : Symbol → Nat
  | terminal t => t.code
  | nonterminal n => Terminal.count + n.code

end Symbol

end Splice
