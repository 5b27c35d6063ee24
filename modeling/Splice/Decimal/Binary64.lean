/-!
# Binary floating-point numbers

The values of the 64-bit binary format, written exactly as `± mantissa · 2 ^ exponent`. A finite
value has a mantissa below `2 ^ 53`; below `2 ^ 52` only the least exponent is used, so equal
values have equal fields.

* `Binary64.ofRatio`: the value nearest to a quotient, a tie going to the even mantissa.
* `Binary64.ofDecimal`: the value nearest to a decimal number of any size.
-/

namespace Splice

-- Powers are the core library's own, also where there are other instances for them.
attribute [local instance (high)] instPowNat

/-- A value of the 64-bit binary format. -/
inductive Binary64
  | finite (negative : Bool) (mantissa : Nat) (exponent : Int)
  | infinity (negative : Bool)
  | nan
deriving DecidableEq, Inhabited

/-- The quotient rounded to the nearest natural number, a tie going to the even one. -/
def roundRatio (num den : Nat) : Nat :=
  let q := num / den
  match compare (2 * (num % den)) den with
  | .lt => q
  | .gt => q + 1
  | .eq => q + q % 2

/-- `num / den` times `2 ^ e`, as a quotient. -/
def scaleRatio (num den : Nat) (e : Int) : Nat × Nat :=
  if 0 ≤ e then (num * 2 ^ e.toNat, den) else (num, den * 2 ^ (-e).toNat)

namespace Binary64

/-- The number of bits of a mantissa. -/
def precision : Nat := 53

/-- The exponent of the smallest positive value. -/
def leastExponent : Int := -1074

/-- The greatest exponent of a finite value. -/
def greatestExponent : Int := 971

/-- The exponent of the highest binary digit of `num / den`, for positive `num` and `den`. -/
def magnitude (num den : Nat) : Int :=
  let estimate : Int := (num.log2 : Int) - den.log2
  let (n, d) := scaleRatio num den (-estimate)
  if d ≤ n then estimate else estimate - 1

/-- The value nearest to `num / den`. -/
def ofRatio (negative : Bool) (num den : Nat) : Binary64 :=
  if num = 0 then .finite negative 0 leastExponent
  else
    let e := max (magnitude num den - (precision - 1)) leastExponent
    let (n, d) := scaleRatio num den (-e)
    let m := roundRatio n d
    let (m, e) := if m = 2 ^ precision then (2 ^ (precision - 1), e + 1) else (m, e)
    if greatestExponent < e then .infinity negative else .finite negative m e

/-- A number of at least this many digits before the point is infinite. -/
def overflowDigits : Int := 310

/-- A number with at least this many zeros behind the point is zero. -/
def underflowDigits : Int := 400

/-- The value nearest to `digits · 10 ^ exponent`. Numbers far outside the range of the format
are decided by their count of digits, before a power of ten is formed. -/
def ofDecimal (negative : Bool) (digits : Nat) (exponent : Int) : Binary64 :=
  if digits = 0 then .finite negative 0 leastExponent
  else
    let size := (Nat.toDigits 10 digits).length + exponent
    if overflowDigits < size then .infinity negative
    else if size < -underflowDigits then .finite negative 0 leastExponent
    else if 0 ≤ exponent then ofRatio negative (digits * 10 ^ exponent.toNat) 1
    else ofRatio negative digits (10 ^ (-exponent).toNat)

end Binary64

end Splice
