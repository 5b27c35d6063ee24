import Splice.Grammar.Reader
import Splice.Parse.SyntaxError

/-!
# Parsing

A source is read by its grammar first. Only when it has the right shape do the values of its
literals count, so a syntax error anywhere wins over a literal that has no value.

* `readShape`: reads a text by the grammar, whatever its literals are.
* `parse`: reads a text as a program, an expression or a type.
-/

namespace Splice

/-- Why a text has no tree. -/
inductive ParseError
  | shape (e : SyntaxError)
  | literal (fault : LiteralFault)
deriving DecidableEq, Inhabited

/-- The token that stands for the end of a text. It has the place of the last token. -/
def endToken (tokens : List Token) : Token :=
  match tokens.getLast? with
  | some last => { terminal := .endOfText, text := [], offset := last.offset, loc := last.loc }
  | none => { terminal := .endOfText, text := [], offset := 0, loc := .start }

/-- Reads a text by the grammar. A character that starts no token is found only if the tokens
before it can stand where they are. -/
def readShape (goal : Goal) (source : Text) : Except SyntaxError (Decoded goal.body.Value) :=
  let reader := Reader.ofGoal goal
  let lexed := Lexed.ofText source
  let last := endToken lexed.tokens
  let refused (token : Token) (stack : Stack) : SyntaxError := .token token (reader.expected stack)
  match lexed.fault with
  | some fault =>
    match reader.readAll lexed.tokens [] with
    | .ok _ => .error (.character fault lexed.tokens.getLast?)
    | .error (token, stack) => .error (refused token stack)
  | none =>
    match reader.readAll (lexed.tokens ++ [last]) [] with
    | .ok stack =>
      match stack.pop [.nonterminal goal.body, .terminal .endOfText] with
      | some ((node, _), _) => .ok node
      | none => .error (refused last stack)
    | .error (token, stack) => .error (refused token stack)

/-- Reads a text as the tree of a goal. -/
def parse (goal : Goal) (source : Text) : Except ParseError goal.body.Value :=
  match readShape goal source with
  | .error e => .error (.shape e)
  | .ok (.error fault) => .error (.literal fault)
  | .ok (.ok node) => .ok node

/-- Reads a program. -/
def parseProgram (source : Text) : Except ParseError Program := parse .program source

/-- Reads an expression. -/
def parseExpr (source : Text) : Except ParseError Node := parse .expr source

/-- Reads a type. -/
def parseType (source : Text) : Except ParseError Node := parse .type source

end Splice
