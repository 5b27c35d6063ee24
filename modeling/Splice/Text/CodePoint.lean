/-!
# Code points

The characters of texts. A text may hold a lone surrogate: no file does, since no encoding of a text
has one, but an escape of a literal can name one.

* `CodePoint.toNat_injective`: a code point is known by its number.
* `CodePoint.toNat_ofNat`: every number up to `U+10FFFF` is that of a code point.
-/

namespace Splice

/-- A character of a text. -/
inductive CodePoint
  /-- A Unicode scalar value. -/
  | scalar (c : Char)
  /-- One of the surrogates from `U+D800` on, by its place among them. -/
  | surrogate (index : Fin 0x800)
deriving DecidableEq, Inhabited

namespace CodePoint

instance : Coe Char CodePoint := ⟨scalar⟩

/-- The first surrogate. -/
def firstSurrogate : Nat := 0xd800

/-- The number of a code point. -/
def toNat : CodePoint → Nat
  | scalar c => c.toNat
  | surrogate index => firstSurrogate + index

/-- The code point with a number. Above `U+10FFFF` there is none. -/
def ofNat (n : Nat) : CodePoint :=
  if n.isValidChar then scalar (Char.ofNat n) else surrogate (Fin.ofNat 0x800 (n - firstSurrogate))

/-- The scalar value that a code point is, unless it is a surrogate. -/
def toChar? : CodePoint → Option Char
  | scalar c => some c
  | surrogate _ => none

/-- The ASCII letters. -/
def isAlpha (c : CodePoint) : Bool := c.toChar?.any Char.isAlpha

/-- The ASCII digits. -/
def isDigit (c : CodePoint) : Bool := c.toChar?.any Char.isDigit

@[simp] theorem isAlpha_scalar (c : Char) : (scalar c).isAlpha = c.isAlpha := rfl

@[simp] theorem isDigit_scalar (c : Char) : (scalar c).isDigit = c.isDigit := rfl

theorem toNat_ofNat {n : Nat} (h : n ≤ 0x10ffff) : (ofNat n).toNat = n := by
  unfold ofNat
  split
  next hvalid =>
    rw [toNat, Char.ofNat, dif_pos hvalid]
    rfl
  next hvalid =>
    simp only [Nat.isValidChar, not_or, not_and, Nat.not_lt] at hvalid
    obtain ⟨hlow, hhigh⟩ := hvalid
    have hbelow : n < 0xe000 := by omega
    rw [toNat, firstSurrogate, Fin.val_ofNat, Nat.mod_eq_of_lt (by omega)]
    omega

theorem toNat_injective : Function.Injective toNat := by
  have apart (c : Char) (index : Fin 0x800) : c.toNat ≠ firstSurrogate + index := by
    have hvalid : c.toNat.isValidChar := c.valid
    have hindex := index.isLt
    unfold firstSurrogate
    rcases hvalid with hlow | ⟨hhigh, -⟩ <;> omega
  intro c d h
  cases c with
  | scalar c =>
    cases d with
    | scalar d => exact congrArg scalar (Char.toNat_inj.1 h)
    | surrogate index => exact absurd h (apart c index)
  | surrogate index =>
    cases d with
    | scalar d => exact absurd h.symm (apart d index)
    | surrogate index' => exact congrArg surrogate (Fin.ext (Nat.add_left_cancel h))

/-- A code point is the one with its number. -/
theorem ofNat_toNat (c : CodePoint) : ofNat c.toNat = c := by
  have hle : c.toNat ≤ 0x10ffff := by
    cases c with
    | scalar c =>
      have hvalid : c.toNat.isValidChar := c.valid
      rcases hvalid with hlow | ⟨-, hhigh⟩ <;> rw [toNat] <;> omega
    | surrogate index =>
      have := index.isLt
      rw [toNat, firstSurrogate]
      omega
  exact toNat_injective (toNat_ofNat hle)

theorem eq_ofNat {c : CodePoint} {n : Nat} (h : c.toNat = n) : c = ofNat n := by
  rw [← h, ofNat_toNat]

end CodePoint

end Splice
