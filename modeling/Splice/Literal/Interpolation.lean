import Splice.Source.PlacedText

/-!
# Interpolated literals

A literal with values in its text, as it stands in a source.
-/

namespace Splice

/-- The two kinds of interpolated literals, which lower to different argument lists. -/
inductive InterpolationKind
  /-- `i"…"`: texts and escapes alternate. -/
  | interspersed
  /-- `f"…"`: one text, then all escapes. -/
  | formatted
deriving DecidableEq, Inhabited

namespace InterpolationKind

/-- The letter in front of the literal. -/
def letter : InterpolationKind → CodePoint
  | interspersed => 'i'
  | formatted => 'f'

/-- The name of the kind in diagnostics. -/
def label : InterpolationKind → Text
  | interspersed => "interspersion"
  | formatted => "format-string"

end InterpolationKind

/-- An interpolated literal: its body, with host escapes decoded, placed in the source. The end of
the body is where the closing quote stands. -/
structure Interpolation where
  loc : Loc
  kind : InterpolationKind
  body : PlacedText
deriving DecidableEq, Inhabited

namespace Interpolation

/-- The place right after the closing quote. -/
def stop (i : Interpolation) : Loc := i.body.stop.right 1

/-- The same literal at other places. -/
def mapLoc (f : Loc → Loc) (i : Interpolation) : Interpolation :=
  { i with loc := f i.loc, body := i.body.map f }

end Interpolation

end Splice
