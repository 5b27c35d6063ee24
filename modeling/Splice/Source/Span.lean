import Splice.Source.Loc

/-!
# Spans

The stretch of a file that a diagnostic talks about. Every part may be unknown; the end is the
place right after the last character.
-/

namespace Splice

/-- A stretch of source, as far as it is known. -/
structure Span where
  file : Option Text := none
  line : Option Int := none
  column : Option Int := none
  endLine : Option Int := none
  endColumn : Option Int := none
deriving DecidableEq, Inhabited

namespace Span

/-- The span that starts at a location and whose end is unknown; without a location nothing is
known. -/
def ofLoc? : Option Loc → Span
  | none => {}
  | some loc => { line := some loc.line, column := some loc.column }

/-- The stretch between two locations of a file. -/
def between (file : Option Text) (first stop : Loc) : Span :=
  { file, line := some first.line, column := some first.column,
    endLine := some stop.line, endColumn := some stop.column }

/-- Names the file of a span that has none yet. -/
def inFile (s : Span) (file : Option Text) : Span := { s with file := s.file <|> file }

/-- The text of a line or column; an unknown one is a question mark. -/
def part : Option Int → Text
  | none => "?"
  | some n => toString n

/-- File, line and column of the start. -/
def describe (s : Span) : Text :=
  let file := match s.file with
    | none | some [] => "<input>"
    | some file => file
  file ++ ":" ++ part s.line ++ ":" ++ part s.column

end Span

end Splice
