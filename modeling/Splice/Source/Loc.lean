import Splice.Text.Basic

/-!
# Source locations

Lines and columns are counted from one, and only a line feed ends a line. They are integers, so
that a location may be moved to any origin.

* `Loc.within`: a location relative to a fragment, moved to where the fragment stands.
* `Loc.within_start`: a fragment that stands at the start of the file keeps its locations.
-/

namespace Splice

/-- A line and a column, both counted from one. -/
structure Loc where
  line : Int
  column : Int
deriving DecidableEq, Inhabited

namespace Loc

/-- The first character of a file. -/
def start : Loc := ⟨1, 1⟩

/-- The location after a character. -/
def advance (loc : Loc) (c : CodePoint) : Loc :=
  if c = '\n' then ⟨loc.line + 1, 1⟩ else ⟨loc.line, loc.column + 1⟩

/-- The location after a text. -/
def advanceAll (loc : Loc) (t : Text) : Loc := t.foldl advance loc

/-- The location `n` columns to the right. -/
def right (loc : Loc) (n : Int) : Loc := ⟨loc.line, loc.column + n⟩

/-- Moves a location relative to a fragment to the file in which the fragment starts at `origin`.
Only the fragment's first line shares its line with what stands before it. -/
def within (loc origin : Loc) : Loc :=
  if loc.line = 1 then ⟨origin.line, origin.column + loc.column - 1⟩
  else ⟨origin.line + loc.line - 1, loc.column⟩

theorem within_start (loc : Loc) : loc.within start = loc := by
  obtain ⟨line, column⟩ := loc
  have cancel (n : Int) : 1 + n - 1 = n := by omega
  by_cases h : line = 1
  · simp only [within, start, h, if_true, cancel]
  · simp only [within, start, h, if_false, cancel]

end Loc

end Splice
