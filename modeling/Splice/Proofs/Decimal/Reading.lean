import Splice.Proofs.Decimal.Digits
import Splice.Proofs.Decimal.Rounding

/-!
# Values of decimals

The binary value nearest to a decimal depends on the number alone that the decimal is.

* `Binary64.ofDecimal_eq_ofRatio`: the value is that of a quotient.
* `Binary64.ofDecimal_scale`: zeros at the end of the digits do not matter.
* `Binary64.isCanonical_of_ofDecimal`: the value is canonical.
* `Decimal.value_bounds`: the powers of ten around a decimal.
* `Decimal.toBinary64_convex`: a decimal between two that are read as one value is read as it, too.
-/

namespace Splice

namespace Binary64

variable {negative : Bool}

theorem toDigits_mul_pow {a : Nat} (ha : 0 < a) (j : Nat) :
    Nat.toDigits 10 (a * 10 ^ j) = Nat.toDigits 10 a ++ List.replicate j '0' := by
  induction j with
  | zero => simp
  | succ j ih =>
    have hpos : 0 < a * 10 ^ j := Nat.mul_pos ha (Nat.pow_pos (by decide))
    have happend := Nat.toDigits_append_toDigits (d := 0) (by decide : 1 < 10) hpos (by decide)
    rw [Nat.add_zero, Nat.toDigits_zero, ih, List.append_assoc, ← List.replicate_succ'] at happend
    rw [Nat.pow_succ, ← Nat.mul_assoc, Nat.mul_comm _ 10, ← happend]

theorem digitsOf_mul_pow {a : Nat} (ha : 0 < a) (j : Nat) :
    digitsOf (a * 10 ^ j) = digitsOf a ++ zeros j := by
  rw [digitsOf, toDigits_mul_pow ha, Text.ofChars, List.map_append, List.map_replicate]
  rfl

/-- The value of a decimal that is neither too great nor too small. -/
theorem ofDecimal_eq_ofRatio {digits : Nat} {exponent : Int} (hdigits : 0 < digits)
    (hupper : (Nat.toDigits 10 digits).length + exponent ≤ overflowDigits)
    (hlower : -underflowDigits ≤ (Nat.toDigits 10 digits).length + exponent) {num den : Nat}
    (hden : 0 < den) (h : (num : ℚ) / den = digits * 10 ^ exponent) :
    ofDecimal negative digits exponent = ofRatio negative num den := by
  rw [ofDecimal, if_neg hdigits.ne']
  dsimp only
  rw [if_neg (Int.not_lt.2 hupper), if_neg (Int.not_lt.2 hlower)]
  split
  next hexponent =>
    refine ofRatio_congr Nat.one_pos hden ?_ negative
    obtain ⟨k, rfl⟩ := Int.eq_ofNat_of_zero_le hexponent
    rw [h]
    simp
  next hexponent =>
    refine ofRatio_congr (Nat.pow_pos (by decide)) hden ?_ negative
    obtain ⟨k, hk⟩ := Int.eq_ofNat_of_zero_le
      (Int.neg_nonneg_of_nonpos (Int.le_of_not_le hexponent))
    obtain rfl : exponent = -k := by omega
    rw [h]
    simp [div_eq_mul_inv]

theorem exists_ratio (digits : Nat) (exponent : Int) :
    ∃ num den : Nat, 0 < den ∧ (num : ℚ) / den = digits * 10 ^ exponent := by
  rcases Int.le_total 0 exponent with h | h
  · obtain ⟨k, rfl⟩ := Int.eq_ofNat_of_zero_le h
    exact ⟨digits * 10 ^ k, 1, Nat.one_pos, by simp⟩
  · obtain ⟨k, hk⟩ := Int.eq_ofNat_of_zero_le (Int.neg_nonneg_of_nonpos h)
    obtain rfl : exponent = -k := by omega
    exact ⟨digits, 10 ^ k, Nat.pow_pos (by decide), by simp [div_eq_mul_inv]⟩

/-- Zeros at the end of the digits do not matter. -/
theorem ofDecimal_scale {a : Nat} (ha : 0 < a) (j : Nat) (exponent : Int) :
    ofDecimal negative (a * 10 ^ j) (exponent - j) = ofDecimal negative a exponent := by
  have hpos : 0 < a * 10 ^ j := Nat.mul_pos ha (Nat.pow_pos (by decide))
  have hsize : ((Nat.toDigits 10 (a * 10 ^ j)).length : Int) + (exponent - j) =
      (Nat.toDigits 10 a).length + exponent := by
    rw [toDigits_mul_pow ha, List.length_append, List.length_replicate]
    omega
  by_cases hupper : overflowDigits < (Nat.toDigits 10 a).length + exponent
  · rw [ofDecimal, ofDecimal, if_neg hpos.ne', if_neg ha.ne']
    dsimp only
    rw [hsize, if_pos hupper, if_pos hupper]
  by_cases hlower : (Nat.toDigits 10 a).length + exponent < -underflowDigits
  · rw [ofDecimal, ofDecimal, if_neg hpos.ne', if_neg ha.ne']
    dsimp only
    rw [hsize, if_neg hupper, if_pos hlower, if_neg hupper, if_pos hlower]
  have hupper := Int.not_lt.1 hupper
  have hlower := Int.not_lt.1 hlower
  obtain ⟨num, den, hden, hratio⟩ := exists_ratio a exponent
  have hratio' : (num : ℚ) / den = (a * 10 ^ j : Nat) * 10 ^ (exponent - j) := by
    rw [hratio, Nat.cast_mul, Nat.cast_pow, Nat.cast_ofNat, zpow_sub₀ (by norm_num), zpow_natCast]
    field_simp
  rw [ofDecimal_eq_ofRatio ha hupper hlower hden hratio,
    ofDecimal_eq_ofRatio hpos (hsize ▸ hupper) (hsize ▸ hlower) hden hratio']

/-- The values of decimals are canonical. -/
theorem isCanonical_of_ofDecimal {sign : Bool} {digits : Nat} {exponent : Int} {m : Nat} {e : Int}
    (h : ofDecimal negative digits exponent = .finite sign m e) : IsCanonical m e := by
  have hzero : IsCanonical 0 leastExponent := ⟨by decide, Int.le_refl _, by decide, .inr rfl⟩
  unfold ofDecimal at h
  split at h
  next => cases h; exact hzero
  next =>
    dsimp only at h
    split at h
    next => cases h
    next =>
      split at h
      next => cases h; exact hzero
      next =>
        split at h
        next => exact isCanonical_of_ofRatio Nat.one_pos h
        next => exact isCanonical_of_ofRatio (Nat.pow_pos (by decide)) h

/-- A quotient is rounded to a finite value or to infinity. -/
theorem ofRatio_cases (num den : Nat) : ofRatio false num den = .infinity false ∨
    ∃ m e, ofRatio false num den = .finite false m e := by
  rcases Nat.eq_zero_or_pos num with rfl | hnum
  · exact .inr ⟨_, _, if_pos rfl⟩
  · rw [ofRatio_eq_assemble hnum, assemble]
    split
    split
    · exact .inl rfl
    · exact .inr ⟨_, _, rfl⟩

theorem ofDecimal_cases (digits : Nat) (exponent : Int) :
    ofDecimal false digits exponent = .infinity false ∨
      ∃ m e, ofDecimal false digits exponent = .finite false m e := by
  unfold ofDecimal
  dsimp only
  split
  · exact .inr ⟨_, _, rfl⟩
  split
  · exact .inl rfl
  split
  · exact .inr ⟨_, _, rfl⟩
  split
  · exact ofRatio_cases _ _
  · exact ofRatio_cases _ _

end Binary64

namespace Decimal

open Binary64

variable {d : Decimal} {m : Nat} {e : Int}

/-- The number that a decimal is. -/
def value (d : Decimal) : ℚ := d.digits * 10 ^ d.exponent

theorem value_mono {a b : Decimal} (hdigits : a.digits ≤ b.digits)
    (hexponent : a.exponent ≤ b.exponent) : a.value ≤ b.value :=
  mul_le_mul (Nat.cast_le.2 hdigits) (zpow_le_zpow_right₀ (by norm_num) hexponent)
    (zpow_pos (by norm_num) _).le (Nat.cast_nonneg _)

theorem value_one (power : Int) : (⟨1, power⟩ : Decimal).value = 10 ^ power := by simp [value]

/-- A positive number lies between the powers of ten of its count of digits. -/
theorem pow_digitCount_bounds {n : Nat} (hn : 0 < n) :
    0 < digitCount n ∧ 10 ^ (digitCount n - 1) ≤ n ∧ n < 10 ^ digitCount n := by
  have hlength : 0 < digitCount n := Nat.length_toDigits_pos
  refine ⟨hlength, ?_, ?_⟩
  · rcases Nat.eq_zero_or_pos (digitCount n - 1) with hone | hmore
    · rw [hone]
      exact hn
    · refine Nat.not_lt.1 fun hlt => ?_
      have hle : digitCount n ≤ digitCount n - 1 :=
        (Nat.length_toDigits_le_iff (by decide : 1 < 10) hmore).2 hlt
      omega
  · exact (Nat.length_toDigits_le_iff (by decide : 1 < 10) hlength).1 (Nat.le_refl _)

/-- A power of ten is a natural one times the rest. -/
theorem cast_pow_mul_zpow (n : Nat) {j k : Int} (h : j = n + k) :
    ((10 ^ n : Nat) : ℚ) * 10 ^ k = 10 ^ j := by
  rw [h, zpow_add₀ (by norm_num), zpow_natCast, Nat.cast_pow, Nat.cast_ofNat]

/-- A positive decimal lies between two powers of ten. -/
theorem value_bounds (hd : 0 < d.digits) :
    (10 : ℚ) ^ (digitCount d.digits + d.exponent - 1) ≤ d.value ∧
      d.value < 10 ^ (digitCount d.digits + d.exponent) := by
  obtain ⟨hlength, hle, hlt⟩ := pow_digitCount_bounds hd
  generalize digitCount d.digits = length at *
  have hten (k : Int) : (0 : ℚ) < 10 ^ k := zpow_pos (by norm_num) k
  constructor
  · rw [← cast_pow_mul_zpow (length - 1) (k := d.exponent) (by omega)]
    exact mul_le_mul_of_nonneg_right (Nat.cast_le.2 hle) (hten _).le
  · rw [← cast_pow_mul_zpow length rfl]
    exact mul_lt_mul_of_pos_right (Nat.cast_lt.2 hlt) (hten _)

/-- A decimal that is not below a power of ten has a digit at this place or above it. -/
theorem lt_of_pow_le_value (hd : 0 < d.digits) {k : Int} (h : (10 : ℚ) ^ k ≤ d.value) :
    k < digitCount d.digits + d.exponent :=
  (zpow_lt_zpow_iff_right₀ (by norm_num)).1 (h.trans_lt (value_bounds hd).2)

/-- A decimal below a power of ten has no digit at this place or above it. -/
theorem le_of_value_lt_pow (hd : 0 < d.digits) {k : Int} (h : d.value < (10 : ℚ) ^ k) :
    digitCount d.digits + d.exponent ≤ k :=
  Int.le_of_sub_one_lt <|
    (zpow_lt_zpow_iff_right₀ (by norm_num)).1 ((value_bounds hd).1.trans_lt h)

/-- The decimals that are read as positive values are neither too great nor too small. -/
theorem range_of_toBinary64 (hm : 0 < m) (h : d.toBinary64 = .finite false m e) : 0 < d.digits ∧
    digitCount d.digits + d.exponent ≤ overflowDigits ∧
      -underflowDigits ≤ digitCount d.digits + d.exponent := by
  rw [toBinary64, ofDecimal] at h
  split at h
  next =>
    cases h
    exact absurd hm (Nat.lt_irrefl 0)
  next hdigits =>
    dsimp only at h
    split at h
    next => cases h
    next hupper =>
      split at h
      next =>
        cases h
        exact absurd hm (Nat.lt_irrefl 0)
      next hlower =>
        exact ⟨Nat.pos_of_ne_zero hdigits, Int.not_lt.1 hupper, Int.not_lt.1 hlower⟩

theorem roundsTo (hm : 0 < m) (h : d.toBinary64 = .finite false m e) :
    RoundsTo d.value (.finite false m e) := by
  obtain ⟨hdigits, hupper, hlower⟩ := range_of_toBinary64 hm h
  obtain ⟨num, den, hden, hratio⟩ := exists_ratio d.digits d.exponent
  exact ⟨num, den, hden, hratio, h ▸ (ofDecimal_eq_ofRatio hdigits hupper hlower hden hratio).symm⟩

/-- A decimal that is neither too great nor too small is read as what its number is rounded to. -/
theorem toBinary64_of_roundsTo {x : Binary64} (hdigits : 0 < d.digits)
    (hupper : digitCount d.digits + d.exponent ≤ overflowDigits)
    (hlower : -underflowDigits ≤ digitCount d.digits + d.exponent) (h : RoundsTo d.value x) :
    d.toBinary64 = x := by
  obtain ⟨num, den, hden, hratio, hround⟩ := h
  rw [← hround]
  exact ofDecimal_eq_ofRatio hdigits hupper hlower hden hratio

/-- A decimal between two that are read as one value is read as it, too. -/
theorem toBinary64_convex {a b c : Decimal} (hm : 0 < m) (ha : a.toBinary64 = .finite false m e)
    (hc : c.toBinary64 = .finite false m e) (hab : a.value ≤ b.value) (hbc : b.value ≤ c.value) :
    b.toBinary64 = .finite false m e := by
  obtain ⟨hdigitsa, -, hlower⟩ := range_of_toBinary64 hm ha
  obtain ⟨hdigitsc, hupper, -⟩ := range_of_toBinary64 hm hc
  have hpos : 0 < a.value := (zpow_pos (by norm_num) _).trans_le (value_bounds hdigitsa).1
  have hdigits : 0 < b.digits := by
    refine Nat.pos_of_ne_zero fun hzero => ?_
    rw [value, value, hzero, Nat.cast_zero, zero_mul] at hab
    exact absurd hpos (not_lt.2 hab)
  have hle := le_of_value_lt_pow hdigits (hbc.trans_lt (value_bounds hdigitsc).2)
  have hlt := lt_of_pow_le_value hdigits ((value_bounds hdigitsa).1.trans hab)
  exact toBinary64_of_roundsTo hdigits (hle.trans hupper) (by omega)
    ((roundsTo hm ha).convex (roundsTo hm hc) hpos hab hbc)

end Decimal

end Splice
