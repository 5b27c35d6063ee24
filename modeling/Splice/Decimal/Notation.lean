import Splice.Decimal.Shortest
import Splice.Text.Basic

/-!
# Writing floating-point numbers

A number is written with the digits of its shortest decimal. Numbers from `0.0001` up to those of
sixteen digits before the point are written positionally and always with a fraction; all others
are written with an exponent that has a sign and at least two digits.

* `Binary64.write`: the written form of any value.
-/

namespace Splice

/-- How numbers are laid out. -/
structure NumberLayout where
  /-- With more digits before the point, a number is written with an exponent. -/
  maxWhole : Int
  /-- With more zeros behind the point, a number is written with an exponent. -/
  maxLeadingZeros : Int
  /-- The fewest digits of an exponent. -/
  exponentWidth : Nat

/-- The layout of numbers in host source. -/
def NumberLayout.host : NumberLayout := { maxWhole := 16, maxLeadingZeros := 3, exponentWidth := 2 }

/-- The decimal digits of a number. -/
def digitsOf (n : Nat) : Text := Text.ofChars (Nat.toDigits 10 n)

/-- A row of zeros. -/
def zeros (count : Nat) : Text := List.replicate count '0'

/-- The decimal digits of a number, at least `width` of them. -/
def decimalDigits (width n : Nat) : Text :=
  zeros (width - (digitsOf n).length) ++ digitsOf n

namespace Decimal

/-- The digits without the zeros at their end. -/
def significant (d : Decimal) : Text :=
  ((digitsOf d.digits).reverse.dropWhile fun c : CodePoint => c = '0').reverse

/-- Digits with the point behind the first `whole` of them. -/
def positional (digits : Text) (whole : Int) : Text :=
  if whole ≤ 0 then ↑ '0' :: ↑ '.' :: (zeros (-whole).toNat ++ digits)
  else
    let n := whole.toNat
    let fraction := digits.drop n
    digits.take n ++ zeros (n - digits.length) ++
      ↑ '.' :: (if fraction = [] then zeros 1 else fraction)

/-- Digits with the point behind the first one, and a power of ten. -/
def scientific (layout : NumberLayout) (digits : Text) (exponent : Int) : Text :=
  let fraction := digits.drop 1
  digits.take 1 ++ (if fraction = [] then [] else ↑ '.' :: fraction) ++
    ↑ 'e' :: (if exponent < 0 then ↑ '-' else ↑ '+') ::
      decimalDigits layout.exponentWidth exponent.natAbs

/-- The written form of a positive decimal. -/
def write (layout : NumberLayout) (d : Decimal) : Text :=
  let digits := d.significant
  let whole := digitCount d.digits + d.exponent
  if -layout.maxLeadingZeros ≤ whole ∧ whole ≤ layout.maxWhole then positional digits whole
  else scientific layout digits (whole - 1)

end Decimal

namespace Binary64

/-- The written form of a value without its sign. -/
def writeMagnitude (layout : NumberLayout) (mantissa : Nat) (exponent : Int) : Text :=
  if mantissa = 0 then ['0', '.', '0'] else (shortest mantissa exponent).write layout

/-- The written form of a value. -/
def write (x : Binary64) : Text :=
  let signed (negative : Bool) (t : Text) : Text := if negative then '-' :: t else t
  match x with
  | finite negative mantissa exponent =>
    signed negative (writeMagnitude .host mantissa exponent)
  | infinity negative => signed negative ['i', 'n', 'f']
  | nan => ['n', 'a', 'n']

end Binary64

end Splice
