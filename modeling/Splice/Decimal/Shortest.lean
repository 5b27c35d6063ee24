import Splice.Decimal.Binary64

/-!
# Shortest decimals

The decimal with the fewest digits that reads back as a given binary value; of several, the one
nearest to the value. For each count of digits only the two decimals around the value come into
question, and whether one of them reads back is asked of the reader itself.

* `Binary64.shortest`: the digits and the exponent of that decimal.
-/

namespace Splice

-- Powers are the core library's own, also where there are other instances for them.
attribute [local instance (high)] instPowNat

/-- A decimal number `digits · 10 ^ exponent`. -/
structure Decimal where
  digits : Nat
  exponent : Int
deriving DecidableEq, Inhabited

namespace Decimal

/-- The binary value nearest to the decimal. -/
def toBinary64 (d : Decimal) : Binary64 := .ofDecimal false d.digits d.exponent

end Decimal

/-- The number of decimal digits of a number. -/
def digitCount (n : Nat) : Nat := (Nat.toDigits 10 n).length

namespace Binary64

/-- No positive value has this many zeros behind the point. -/
def decimalShift : Nat := 400

/-- The number of digits before the point of `num / den`; the zeros behind the point of a number
below a tenth count as negative. -/
def pointPosition (num den : Nat) : Int :=
  (digitCount (num * 10 ^ decimalShift / den) : Int) - decimalShift

/-- The multiples of a power of ten just below and just above `num / den`, the nearer one first;
of two that are equally near, the one with the even last digit. -/
def multiples (num den : Nat) (exponent : Int) : List Decimal :=
  let (n, d) :=
    if 0 ≤ exponent then (num, den * 10 ^ exponent.toNat) else (num * 10 ^ (-exponent).toNat, den)
  let below : Decimal := ⟨n / d, exponent⟩
  let above : Decimal := ⟨n / d + 1, exponent⟩
  if roundRatio n d = n / d then [below, above] else [above, below]

/-- The decimals of `count` digits just below and just above `num / den`, the nearer one first. -/
def neighbours (num den count : Nat) : List Decimal :=
  multiples num den (pointPosition num den - count)

/-- Seventeen digits tell any two values apart. -/
def maxDigits : Nat := 17

/-- The decimal that is exactly `mantissa · 2 ^ exponent`. -/
def exactDecimal (mantissa : Nat) (exponent : Int) : Decimal :=
  if 0 ≤ exponent then ⟨mantissa * 2 ^ exponent.toNat, 0⟩
  else ⟨mantissa * 5 ^ (-exponent).toNat, exponent⟩

/-- The shortest decimal that reads back as the positive value `mantissa · 2 ^ exponent`. -/
def shortest (mantissa : Nat) (exponent : Int) : Decimal :=
  let (num, den) := scaleRatio mantissa 1 exponent
  let candidates := (List.range maxDigits).flatMap fun i => neighbours num den (i + 1)
  (candidates.find? fun d => d.toBinary64 == .finite false mantissa exponent).getD
    (exactDecimal mantissa exponent)

end Binary64

end Splice
