import Splice.Source.Loc

/-!
# Placed texts

A text together with the place of each of its characters in the source, and the place where it
ends. A character that was written as an escape is placed at the escape's first character, so
neighbouring characters may be any distance apart.

* `PlacedText.verbatim`: a text that stands in the source as it is.
* `PlacedText.locate`: the place of the character at an offset; an offset outside the text is
  moved to the nearer end.
* `PlacedText.length_positions`: there is one position more than there are characters.
-/

namespace Splice

/-- Characters with their places, and the place right after the last one. -/
structure PlacedText where
  chars : List (CodePoint × Loc)
  stop : Loc
deriving DecidableEq, Inhabited

namespace PlacedText

/-- The characters alone. -/
def text (p : PlacedText) : Text := p.chars.map (·.1)

/-- The places of the characters, then the place of the end. -/
def positions (p : PlacedText) : List Loc := p.chars.map (·.2) ++ [p.stop]

/-- The placed text with one more character in front. -/
def cons (c : CodePoint) (loc : Loc) (p : PlacedText) : PlacedText := ⟨(c, loc) :: p.chars, p.stop⟩

/-- A text that stands in the source as it is, from `loc` on. -/
def verbatim : Text → Loc → PlacedText
  | [], loc => ⟨[], loc⟩
  | c :: rest, loc => (verbatim rest (loc.advance c)).cons c loc

/-- The text `t` with the positions `ps`, if there is one position more than characters. -/
def ofPositions? : Text → List Loc → Option PlacedText
  | [], [stop] => some ⟨[], stop⟩
  | c :: rest, loc :: ps => (ofPositions? rest ps).map (cons c loc)
  | _, _ => none

/-- The same characters at other places. -/
def map (f : Loc → Loc) (p : PlacedText) : PlacedText :=
  ⟨p.chars.map fun (c, loc) => (c, f loc), f p.stop⟩

/-- The place of the character at an offset. Before the text it is the first one's place, and
behind it the end's. -/
def locate (p : PlacedText) (offset : Int) : Loc :=
  (p.chars[offset.toNat]?).elim p.stop (·.2)

@[simp] theorem length_positions (p : PlacedText) : p.positions.length = p.text.length + 1 := by
  simp [positions, text]

@[simp] theorem text_cons (c : CodePoint) (loc : Loc) (p : PlacedText) :
    (p.cons c loc).text = c :: p.text := rfl

@[simp] theorem text_verbatim (t : Text) (loc : Loc) : (verbatim t loc).text = t := by
  induction t generalizing loc with
  | nil => rfl
  | cons c rest ih => simp [verbatim, ih]

theorem stop_verbatim (t : Text) (loc : Loc) : (verbatim t loc).stop = loc.advanceAll t := by
  induction t generalizing loc with
  | nil => rfl
  | cons c rest ih => simp [verbatim, cons, ih, Loc.advanceAll]

@[simp] theorem text_map (f : Loc → Loc) (p : PlacedText) : (p.map f).text = p.text := by
  simp [map, text, Function.comp_def]

@[simp] theorem positions_map (f : Loc → Loc) (p : PlacedText) :
    (p.map f).positions = p.positions.map f := by
  simp [map, positions, Function.comp_def]

end PlacedText

end Splice
