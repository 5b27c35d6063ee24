import Splice.Text.CodePoint

/-!
# Texts

A text is the list of its characters, so that every reader below is a recursion on it. Offsets
and lengths count characters.

* `Text.ofString`: the text of a word that is spelled in the program.
* `Text.expandedLength`: how many columns a text takes once its tabs are expanded.
* `Text.firstLine`: the text before the first line boundary.
-/

namespace Splice

/-- A text of the host language: its characters in order. -/
abbrev Text := List CodePoint

namespace Text

/-- The text of scalar values. -/
def ofChars (cs : List Char) : Text := cs.map CodePoint.scalar

/-- The text of a string, which holds no surrogate. -/
def ofString (s : String) : Text := ofChars s.toList

theorem ofChars_cons (c : Char) (cs : List Char) : ofChars (c :: cs) = .scalar c :: ofChars cs :=
  rfl

theorem mem_ofChars {c : CodePoint} {cs : List Char} : c ∈ ofChars cs ↔ ∃ d ∈ cs, .scalar d = c :=
  List.mem_map

instance : Coe String Text := ⟨ofString⟩

/-- Tab stops stand every eight columns. -/
def tabWidth : Nat := 8

/-- Length and column after one more character: a tab runs to the next tab stop, and the column
starts again after a line feed or a carriage return. -/
def expandStep (state : Nat × Nat) (c : CodePoint) : Nat × Nat :=
  let (length, column) := state
  if c = '\t' then
    let pad := tabWidth - column % tabWidth
    (length + pad, column + pad)
  else if c = '\n' ∨ c = '\r' then (length + 1, 0)
  else (length + 1, column + 1)

/-- The number of characters of a text in which every tab became spaces up to its tab stop. -/
def expandedLength (t : Text) : Nat := (t.foldl expandStep (0, 0)).1

/-- The characters that end a line wherever lines of any text are told apart. -/
def isLineBoundary (c : CodePoint) : Bool :=
  let n := c.toNat
  (0x0a ≤ n && n ≤ 0x0d) || (0x1c ≤ n && n ≤ 0x1e) || n == 0x85 || n == 0x2028 || n == 0x2029

/-- The text before the first line boundary. -/
def firstLine (t : Text) : Text := t.takeWhile fun c => !isLineBoundary c

end Text

end Splice
