import Splice.Text.Basic

/-!
# Terminals

The kinds of tokens that the host grammar tells apart: keywords, marks (operators and brackets),
names and the literals. `Terminal.label` is the name of a kind in syntax errors.

* `Terminal.all`: every kind once, which `Terminal.mem_all` proves.
* `Keyword.ofText?`: a name that is spelled like a keyword is that keyword.
-/

namespace Splice

/-- The types that the language knows without a declaration. -/
inductive BuiltinType
  | int | long | short | byte | uint | ulong | float | double | bool | char | string | void
deriving DecidableEq, Inhabited

namespace BuiltinType

/-- All builtin types. -/
def all : List BuiltinType :=
  [.int, .long, .short, .byte, .uint, .ulong, .float, .double, .bool, .char, .string, .void]

/-- The keyword of the type. -/
def word : BuiltinType → Text
  | int => "int"
  | long => "long"
  | short => "short"
  | byte => "byte"
  | uint => "uint"
  | ulong => "ulong"
  | float => "float"
  | double => "double"
  | bool => "bool"
  | char => "char"
  | string => "string"
  | void => "void"

/-- The name of the keyword in syntax errors. -/
def label : BuiltinType → String
  | int => "INT"
  | long => "LONG"
  | short => "SHORT"
  | byte => "BYTE"
  | uint => "UINT"
  | ulong => "ULONG"
  | float => "FLOAT"
  | double => "DOUBLE"
  | bool => "BOOL"
  | char => "CHAR"
  | string => "__ANON_0"
  | void => "VOID"

end BuiltinType

/-- The type constructors that restrict what may be done with a value. -/
inductive Qualifier
  | const | immutable
deriving DecidableEq, Inhabited

namespace Qualifier

/-- All qualifiers. -/
def all : List Qualifier := [.const, .immutable]

/-- The keyword of the qualifier. -/
def word : Qualifier → Text
  | const => "const"
  | immutable => "immutable"

/-- The name of the keyword in syntax errors. -/
def label : Qualifier → String
  | const => "CONST"
  | immutable => "IMMUTABLE"

end Qualifier

/-- The reserved words. -/
inductive Keyword
  | letWord | fnWord | returnWord | mixinWord | trueWord | falseWord | nullWord
  | qualifier (q : Qualifier)
  | builtin (t : BuiltinType)
deriving DecidableEq, Inhabited

namespace Keyword

/-- All reserved words. -/
def all : List Keyword :=
  [.letWord, .fnWord, .returnWord, .mixinWord, .trueWord, .falseWord, .nullWord] ++
    Qualifier.all.map .qualifier ++ BuiltinType.all.map .builtin

/-- The spelling of the word. -/
def word : Keyword → Text
  | letWord => "let"
  | fnWord => "fn"
  | returnWord => "return"
  | mixinWord => "mixin"
  | trueWord => "true"
  | falseWord => "false"
  | nullWord => "null"
  | qualifier q => q.word
  | builtin t => t.word

/-- The name of the word in syntax errors. -/
def label : Keyword → String
  | letWord => "LET"
  | fnWord => "FN"
  | returnWord => "RETURN"
  | mixinWord => "MIXIN"
  | trueWord => "TRUE"
  | falseWord => "FALSE"
  | nullWord => "NULL"
  | qualifier q => q.label
  | builtin t => t.label

/-- The place of a word in the list of all. -/
def code : Keyword → Nat
  | qualifier q => 7 + q.ctorIdx
  | builtin t => 9 + t.ctorIdx
  | k => k.ctorIdx

/-- The reserved word with a spelling. -/
def ofText? (t : Text) : Option Keyword := all.find? fun k => k.word == t

end Keyword

/-- Operators and brackets. -/
inductive Mark
  | andAnd | eqEq | gtEq | ltEq | notEq | orOr
  | bang | colon | comma | dot | equal | gt | lt | lbrace | rbrace | lparen | rparen
  | lbracket | rbracket | minus | percent | plus | semicolon | slash | star | tilde
deriving DecidableEq, Inhabited

namespace Mark

/-- All marks, those of two characters first, so that no mark hides a longer one. -/
def all : List Mark :=
  [.andAnd, .eqEq, .gtEq, .ltEq, .notEq, .orOr,
   .bang, .colon, .comma, .dot, .equal, .gt, .lt, .lbrace, .rbrace, .lparen, .rparen,
   .lbracket, .rbracket, .minus, .percent, .plus, .semicolon, .slash, .star, .tilde]

/-- The spelling of the mark. -/
def text : Mark → Text
  | andAnd => ['&', '&']
  | eqEq => ['=', '=']
  | gtEq => ['>', '=']
  | ltEq => ['<', '=']
  | notEq => ['!', '=']
  | orOr => ['|', '|']
  | bang => ['!']
  | colon => [':']
  | comma => [',']
  | dot => ['.']
  | equal => ['=']
  | gt => ['>']
  | lt => ['<']
  | lbrace => ['{']
  | rbrace => ['}']
  | lparen => ['(']
  | rparen => [')']
  | lbracket => ['[']
  | rbracket => [']']
  | minus => ['-']
  | percent => ['%']
  | plus => ['+']
  | semicolon => [';']
  | slash => ['/']
  | star => ['*']
  | tilde => ['~']

/-- The name of the mark in syntax errors. -/
def label : Mark → String
  | andAnd => "ANDAND"
  | eqEq => "EQEQ"
  | gtEq => "GTE"
  | ltEq => "LTE"
  | notEq => "NOTEQ"
  | orOr => "OROR"
  | bang => "BANG"
  | colon => "COLON"
  | comma => "COMMA"
  | dot => "DOT"
  | equal => "EQUAL"
  | gt => "GT"
  | lt => "LT"
  | lbrace => "LBRACE"
  | rbrace => "RBRACE"
  | lparen => "LPAR"
  | rparen => "RPAR"
  | lbracket => "LSQB"
  | rbracket => "RSQB"
  | minus => "MINUS"
  | percent => "PERCENT"
  | plus => "PLUS"
  | semicolon => "SEMICOLON"
  | slash => "SLASH"
  | star => "STAR"
  | tilde => "TILDE"

end Mark

/-- The kinds of tokens. -/
inductive Terminal
  | keyword (k : Keyword)
  | mark (m : Mark)
  | name
  | intLit
  | floatLit
  | stringLit
  | rawStringLit
  | charLit
  | interpolatedLit
  /-- What stands after the last token. -/
  | endOfText
deriving DecidableEq, Inhabited

namespace Terminal

/-- The kinds of lexemes that are not spelled in the grammar. -/
def lexical : List Terminal :=
  [.name, .intLit, .floatLit, .stringLit, .rawStringLit, .charLit, .interpolatedLit]

/-- Every kind of token, and the end of the text. -/
def all : List Terminal :=
  Keyword.all.map .keyword ++ Mark.all.map .mark ++ lexical ++ [.endOfText]

/-- The number of kinds, the end of the text included. -/
def count : Nat := 55

/-- The place of a kind in the list of all. -/
def code : Terminal → Nat
  | keyword k => k.code
  | mark m => 21 + m.ctorIdx
  | name => 47
  | intLit => 48
  | floatLit => 49
  | stringLit => 50
  | rawStringLit => 51
  | charLit => 52
  | interpolatedLit => 53
  | endOfText => 54

/-- The name of the kind in syntax errors. -/
def label : Terminal → String
  | keyword k => k.label
  | mark m => m.label
  | name => "NAME"
  | intLit => "INT_LIT"
  | floatLit => "FLOAT_LIT"
  | stringLit => "STRING"
  | rawStringLit => "RAW_STRING"
  | charLit => "CHAR_LIT"
  | interpolatedLit => "INTERP_STRING"
  | endOfText => "$END"

/-- The labels of some kinds in the order of their characters. -/
def sortedLabels (kinds : List Terminal) : List String :=
  (kinds.map label).mergeSort fun a b => !(b < a)

theorem code_all : all.map code = List.range count := by decide

theorem mem_all (t : Terminal) : t ∈ all := by
  cases t with
  | keyword k =>
    cases k with
    | qualifier q => cases q <;> decide
    | builtin b => cases b <;> decide
    | _ => decide
  | mark m => cases m <;> decide
  | _ => decide

end Terminal

end Splice
