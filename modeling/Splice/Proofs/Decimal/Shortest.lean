import Mathlib.Algebra.Order.Floor.Semifield
import Mathlib.Data.Nat.Cast.Order.Field
import Splice.Proofs.Decimal.Reading

/-!
# Shortest decimals

* `Binary64.toBinary64_shortest`: the shortest decimal of a value reads back as the value.
* `Binary64.exists_neighbour_between`: no decimal of so many digits is nearer to a number, on either
  side, than the decimals of so many digits around it.
* `Binary64.significant_shortest_le`: no decimal with fewer digits reads back as the value.
-/

namespace Splice

namespace Decimal

variable {d : Decimal}

/-- The digits of a decimal without the zeros at their end. -/
theorem digitsOf_eq_significant (d : Decimal) :
    ∃ k, digitsOf d.digits = d.significant ++ zeros k := by
  have hall := List.all_eq_true.1 (List.all_takeWhile (p := fun c : CodePoint => c = '0')
    (l := (digitsOf d.digits).reverse))
  have hzeros := List.eq_replicate_of_mem fun c hc => of_decide_eq_true (hall c hc)
  refine ⟨((digitsOf d.digits).reverse.takeWhile fun c : CodePoint => c = '0').length, ?_⟩
  rw [significant, zeros, ← List.reverse_replicate, ← hzeros, ← List.reverse_append,
    List.takeWhile_append_dropWhile, List.reverse_reverse]

/-- The zeros at the end of a power of ten are not significant. -/
theorem significant_length_le {n : Nat} (hn : 0 < n) (h : d.digits ≤ 10 ^ n) :
    d.significant.length ≤ n := by
  rcases Nat.lt_or_eq_of_le h with hlt | heq
  · obtain ⟨k, hk⟩ := d.digitsOf_eq_significant
    have hlength := (Nat.length_toDigits_le_iff (by decide : 1 < 10) hn).2 hlt
    rw [← length_digitsOf, hk, List.length_append] at hlength
    exact (Nat.le_add_right _ _).trans hlength
  · have hdigits := Binary64.digitsOf_mul_pow Nat.one_pos n
    have hzeros : ∀ c ∈ zeros n, decide (c = '0') = true := by simp [zeros]
    rw [Nat.one_mul, ← heq] at hdigits
    rw [significant, hdigits, List.reverse_append, zeros, List.reverse_replicate, ← zeros,
      List.dropWhile_append_of_pos hzeros]
    exact hn

end Decimal

namespace Binary64

/-- The decimal that is exactly a value. -/
theorem value_exactDecimal (m : Nat) (e : Int) : (exactDecimal m e).value = m * 2 ^ e := by
  unfold exactDecimal
  split
  next h =>
    obtain ⟨k, rfl⟩ := Int.eq_ofNat_of_zero_le h
    simp [Decimal.value]
  next h =>
    obtain ⟨k, hk⟩ := Int.eq_ofNat_of_zero_le (Int.neg_nonneg_of_nonpos (Int.le_of_not_le h))
    obtain rfl : e = -k := by omega
    have hten : (10 : ℚ) ^ k = 2 ^ k * 5 ^ k := by
      rw [← mul_pow]
      norm_num
    simp only [Decimal.value, neg_neg, Int.toNat_natCast, Nat.cast_mul, Nat.cast_pow,
      Nat.cast_ofNat, zpow_neg, zpow_natCast, hten]
    field_simp

theorem two_pow_le_ten_pow {j k : Nat} (h : 2 ^ j ≤ 10 ^ k) : (2 : ℚ) ^ j ≤ 10 ^ k := by
  exact_mod_cast h

/-- A positive value is not too small for the place of its first digit. -/
theorem pow_le_value {m : Nat} {e : Int} (h : IsCanonical m e) (hm : 0 < m) :
    (10 : ℚ) ^ (-(decimalShift : Int)) ≤ m * 2 ^ e := by
  have hpow : (2 : ℚ) ^ 1074 ≤ 10 ^ decimalShift := two_pow_le_ten_pow (by decide +kernel)
  have hleast : -((1074 : Nat) : Int) ≤ e := h.least
  calc (10 : ℚ) ^ (-(decimalShift : Int)) ≤ 2 ^ (-((1074 : Nat) : Int)) := by
        rw [zpow_neg, zpow_neg, zpow_natCast, zpow_natCast]
        exact inv_anti₀ (pow_pos two_pos _) hpow
    _ ≤ 2 ^ e := zpow_le_zpow_right₀ one_le_two hleast
    _ ≤ m * 2 ^ e := le_mul_of_one_le_left (zpow_pos two_pos e).le (by exact_mod_cast hm)

theorem value_lt_pow {m : Nat} {e : Int} (h : IsCanonical m e) :
    (m : ℚ) * 2 ^ e < 10 ^ overflowDigits := by
  have hm : (m : ℚ) < 2 ^ 53 := by exact_mod_cast h.lt
  have he : e ≤ ((971 : Nat) : Int) := h.greatest
  calc (m : ℚ) * 2 ^ e < 2 ^ 53 * 2 ^ e := mul_lt_mul_of_pos_right hm (zpow_pos two_pos e)
    _ ≤ 2 ^ 53 * 2 ^ ((971 : Nat) : Int) :=
        mul_le_mul_of_nonneg_left (zpow_le_zpow_right₀ one_le_two he) (by positivity)
    _ = 2 ^ (53 + 971) := by rw [zpow_natCast, ← pow_add]
    _ ≤ 10 ^ 310 := two_pow_le_ten_pow (by decide +kernel)

/-- It reads back as the value. -/
theorem toBinary64_exactDecimal {m : Nat} {e : Int} (h : IsCanonical m e) (hm : 0 < m) :
    (exactDecimal m e).toBinary64 = .finite false m e := by
  have hvalue := value_exactDecimal m e
  have hdigits : 0 < (exactDecimal m e).digits := by
    have hpos : (0 : ℚ) < m * 2 ^ e := mul_pos (Nat.cast_pos.2 hm) (zpow_pos two_pos e)
    refine Nat.pos_of_ne_zero fun hzero => ?_
    rw [← hvalue, Decimal.value, hzero, Nat.cast_zero, zero_mul] at hpos
    exact hpos.false
  have hupper := Decimal.le_of_value_lt_pow hdigits (hvalue ▸ value_lt_pow h)
  have hlower := Decimal.lt_of_pow_le_value hdigits (hvalue ▸ pow_le_value h hm)
  exact Decimal.toBinary64_of_roundsTo hdigits hupper hlower.le (hvalue ▸ RoundsTo.exact h)

/-- The shortest decimal of a value reads back as the value. -/
theorem toBinary64_shortest {m : Nat} {e : Int} (h : IsCanonical m e) (hm : 0 < m) :
    (shortest m e).toBinary64 = .finite false m e := by
  unfold shortest
  dsimp only
  generalize (List.range maxDigits).flatMap _ = candidates
  cases hfind : candidates.find? fun d => d.toBinary64 == .finite false m e with
  | none => exact toBinary64_exactDecimal h hm
  | some d =>
    have hd := List.find?_some hfind
    exact eq_of_beq hd

/-! ## The decimals around a value -/

section Neighbours

variable {num den : Nat}

theorem floor_bounds (num den : Nat) :
    ((num / den : Nat) : ℚ) ≤ num / den ∧ (num : ℚ) / den < (num / den : Nat) + 1 := by
  refine ⟨Nat.cast_div_le, ?_⟩
  rw [← Nat.floor_div_eq_div (K := ℚ)]
  exact Nat.lt_floor_add_one _

/-- The number of digits before the point. -/
theorem pointPosition_bounds
    (hsmall : (10 : ℚ) ^ (-(decimalShift : Int)) ≤ num / den) :
    (10 : ℚ) ^ (pointPosition num den - 1) ≤ num / den ∧
      (num : ℚ) / den < 10 ^ pointPosition num den := by
  have hten (k : Int) : (0 : ℚ) < 10 ^ k := zpow_pos (by norm_num) k
  have hscaled : ((num * 10 ^ decimalShift : Nat) : ℚ) / den =
      num / den * 10 ^ (decimalShift : Int) := by
    rw [Nat.cast_mul, Nat.cast_pow, Nat.cast_ofNat, zpow_natCast, div_mul_eq_mul_div]
  obtain ⟨hle, hlt⟩ := floor_bounds (num * 10 ^ decimalShift) den
  rw [hscaled] at hle hlt
  -- Shifted so far, the number has a whole part, and counting its digits says where the point is.
  have hone : (1 : ℚ) ≤ num / den * 10 ^ (decimalShift : Int) := by
    rw [← inv_le_iff_one_le_mul₀ (hten _), ← zpow_neg]
    exact hsmall
  have hpos : 0 < num * 10 ^ decimalShift / den := by
    have hsucc : (1 : ℚ) < (num * 10 ^ decimalShift / den : Nat) + 1 := hone.trans_lt hlt
    have : 1 < num * 10 ^ decimalShift / den + 1 := by exact_mod_cast hsucc
    omega
  obtain ⟨hlength, hlower, hupper⟩ := Decimal.pow_digitCount_bounds hpos
  rw [pointPosition]
  generalize num * 10 ^ decimalShift / den = scaled at *
  generalize digitCount scaled = length at *
  generalize (decimalShift : Int) = shift at *
  have hlower' : (10 : ℚ) ^ ((length : Int) - 1) ≤ scaled := by
    have hcast : (10 : ℚ) ^ ((length : Int) - 1) = ((10 ^ (length - 1) : Nat) : ℚ) := by
      rw [Nat.cast_pow, Nat.cast_ofNat, ← zpow_natCast]
      congr 1
      omega
    rw [hcast]
    exact_mod_cast hlower
  have hupper' : (scaled : ℚ) + 1 ≤ 10 ^ (length : Int) := by
    rw [zpow_natCast]
    exact_mod_cast hupper
  constructor
  · rw [show (length : Int) - shift - 1 = length - 1 - shift by omega, zpow_sub₀ (by norm_num),
      div_le_iff₀ (hten _)]
    exact hlower'.trans hle
  · rw [zpow_sub₀ (by norm_num), lt_div_iff₀ (hten _)]
    exact hlt.trans_le hupper'

/-- The multiples of a power of ten around a number. -/
theorem exists_multiples (num den : Nat) (exponent : Int) : ∃ k : Nat,
    (∀ d, d ∈ multiples num den exponent ↔ d = ⟨k, exponent⟩ ∨ d = ⟨k + 1, exponent⟩) ∧
      k * (10 : ℚ) ^ exponent ≤ num / den ∧ num / den < (k + 1) * (10 : ℚ) ^ exponent := by
  have hten : (0 : ℚ) < 10 ^ exponent := zpow_pos (by norm_num) exponent
  unfold multiples
  split
  next n d hscale =>
    have hscaled : (n : ℚ) / d = num / den / 10 ^ exponent := by
      split at hscale <;> cases hscale
      next h =>
        obtain ⟨k, rfl⟩ := Int.eq_ofNat_of_zero_le h
        simp [div_mul_eq_div_div]
      next h =>
        obtain ⟨k, hk⟩ := Int.eq_ofNat_of_zero_le (Int.neg_nonneg_of_nonpos (Int.le_of_not_le h))
        obtain rfl : exponent = -k := by omega
        simp only [neg_neg, Int.toNat_natCast, Nat.cast_mul, Nat.cast_pow, Nat.cast_ofNat,
          zpow_neg, zpow_natCast, div_inv_eq_mul]
        rw [div_mul_eq_mul_div]
    obtain ⟨hle, hlt⟩ := floor_bounds n d
    rw [hscaled] at hle hlt
    refine ⟨n / d, fun x => ?_, (le_div_iff₀ hten).1 hle, (div_lt_iff₀ hten).1 hlt⟩
    dsimp only
    split
    · simp
    · simp [or_comm]

/-- A decimal of at most `count` digits is not nearer to a number than one of its neighbours, on
the same side of it. -/
theorem exists_neighbour_between {count : Nat} (hcount : 0 < count)
    (hsmall : (10 : ℚ) ^ (-(decimalShift : Int)) ≤ num / den) {c : Decimal}
    (hc : c.digits < 10 ^ count) : ∃ d ∈ neighbours num den count,
      c.value ≤ d.value ∧ d.value ≤ num / den ∨ (num : ℚ) / den ≤ d.value ∧ d.value ≤ c.value := by
  obtain ⟨hlower, -⟩ := pointPosition_bounds hsmall
  unfold neighbours
  generalize hplace : pointPosition num den = place at *
  obtain ⟨k, hmem, hle, hlt⟩ := exists_multiples num den (place - count)
  have hten (e : Int) : (0 : ℚ) < 10 ^ e := zpow_pos (by norm_num) e
  have hfirst : ((10 ^ (count - 1) : Nat) : ℚ) * 10 ^ (place - count) = 10 ^ (place - 1) :=
    Decimal.cast_pow_mul_zpow (count - 1) (by omega)
  have hk : 10 ^ (count - 1) ≤ k := by
    have hlt' := (hfirst.trans_le hlower).trans_lt hlt
    have : (10 ^ (count - 1) : Nat) < k + 1 := by
      exact_mod_cast lt_of_mul_lt_mul_right hlt' (hten _).le
    omega
  rcases Int.lt_or_le c.exponent (place - count) with hfine | hcoarse
  · -- With a finer last digit, the decimal is below all numbers of as many digits.
    refine ⟨_, (hmem _).2 (.inl rfl), .inl ⟨?_, hle⟩⟩
    calc c.value ≤ (10 ^ count : Nat) * 10 ^ c.exponent :=
          mul_le_mul_of_nonneg_right (Nat.cast_le.2 hc.le) (hten _).le
      _ = 10 ^ (count + c.exponent) := Decimal.cast_pow_mul_zpow count rfl
      _ ≤ 10 ^ (place - 1) := zpow_le_zpow_right₀ (by norm_num) (by omega)
      _ ≤ k * 10 ^ (place - count) := by
          rw [← hfirst]
          exact mul_le_mul_of_nonneg_right (Nat.cast_le.2 hk) (hten _).le
  · -- Otherwise it is a multiple of the last digit itself.
    obtain ⟨j, hj⟩ : ∃ j : Nat, c.value = j * 10 ^ (place - count) := by
      obtain ⟨i, hi⟩ := Int.eq_ofNat_of_zero_le (Int.sub_nonneg_of_le hcoarse)
      refine ⟨c.digits * 10 ^ i, ?_⟩
      rw [Decimal.value, show c.exponent = i + (place - count) by omega, zpow_add₀ (by norm_num),
        Nat.cast_mul, Nat.cast_pow, Nat.cast_ofNat, zpow_natCast, mul_assoc]
    rw [hj]
    rcases Nat.lt_or_ge k j with hjk | hjk
    · refine ⟨_, (hmem _).2 (.inr rfl), .inr ⟨?_, ?_⟩⟩
      · simpa [Decimal.value] using hlt.le
      · exact mul_le_mul_of_nonneg_right (Nat.cast_le.2 hjk) (hten _).le
    · refine ⟨_, (hmem _).2 (.inl rfl), .inl ⟨?_, hle⟩⟩
      exact mul_le_mul_of_nonneg_right (Nat.cast_le.2 hjk) (hten _).le

/-- A neighbour of `count` digits is at most the power of ten behind them. -/
theorem digits_le_of_mem_neighbours {count : Nat}
    (hsmall : (10 : ℚ) ^ (-(decimalShift : Int)) ≤ num / den) {d : Decimal}
    (hd : d ∈ neighbours num den count) : d.digits ≤ 10 ^ count := by
  obtain ⟨-, hupper⟩ := pointPosition_bounds hsmall
  unfold neighbours at hd
  generalize pointPosition num den = place at *
  obtain ⟨k, hmem, hle, -⟩ := exists_multiples num den (place - count)
  have hk : k < 10 ^ count := by
    have hten : (0 : ℚ) < 10 ^ (place - count) := zpow_pos (by norm_num) _
    have hsplit : ((10 ^ count : Nat) : ℚ) * 10 ^ (place - count) = 10 ^ place :=
      Decimal.cast_pow_mul_zpow count (by omega)
    exact_mod_cast lt_of_mul_lt_mul_right ((hle.trans_lt hupper).trans_eq hsplit.symm) hten.le
  rcases (hmem d).1 hd with rfl | rfl
  · exact hk.le
  · exact hk

end Neighbours

/-! ## The shortest decimal has the fewest digits -/

section Shortest

variable {m : Nat} {e : Int}

theorem pow_le_ratio (h : IsCanonical m e) (hm : 0 < m) :
    (10 : ℚ) ^ (-(decimalShift : Int)) ≤ (scaleRatio m 1 e).1 / (scaleRatio m 1 e).2 := by
  rw [scaleRatio_div, Nat.cast_one, div_one]
  exact pow_le_value h hm

/-- If a decimal is read as a value, so is a neighbour with as many digits. -/
theorem exists_neighbour_read (h : IsCanonical m e) (hm : 0 < m) {count : Nat} (hcount : 0 < count)
    {c : Decimal} (hc : c.digits < 10 ^ count) (hread : c.toBinary64 = .finite false m e) :
    ∃ d ∈ neighbours (scaleRatio m 1 e).1 (scaleRatio m 1 e).2 count,
      d.toBinary64 = .finite false m e := by
  have hexact := toBinary64_exactDecimal h hm
  have hsmall := pow_le_ratio h hm
  have hvalue : (exactDecimal m e).value = (scaleRatio m 1 e).1 / (scaleRatio m 1 e).2 := by
    rw [value_exactDecimal, scaleRatio_div, Nat.cast_one, div_one]
  obtain ⟨d, hd, ⟨hlower, hupper⟩ | ⟨hlower, hupper⟩⟩ :=
    exists_neighbour_between hcount hsmall hc
  · exact ⟨d, hd, Decimal.toBinary64_convex hm hread hexact hlower (hvalue ▸ hupper)⟩
  · exact ⟨d, hd, Decimal.toBinary64_convex hm hexact hread (hvalue ▸ hlower) hupper⟩

/-- The shortest decimal is a neighbour with no more digits than any decimal that is read as the
value. -/
theorem shortest_mem_neighbours (h : IsCanonical m e) (hm : 0 < m) {count : Nat}
    (hcount : 0 < count) (hle : count ≤ maxDigits) {c : Decimal} (hc : c.digits < 10 ^ count)
    (hread : c.toBinary64 = .finite false m e) : ∃ i < count,
      shortest m e ∈ neighbours (scaleRatio m 1 e).1 (scaleRatio m 1 e).2 (i + 1) := by
  obtain ⟨d, hd, hdread⟩ := exists_neighbour_read h hm hcount hc hread
  obtain ⟨k, hk⟩ := Nat.exists_eq_add_of_le hle
  unfold shortest
  generalize scaleRatio m 1 e = scaled at *
  obtain ⟨num, den⟩ := scaled
  dsimp only at hd ⊢
  rw [hk, List.range_add, List.flatMap_append, List.find?_append]
  have hfound : ((List.range count).flatMap fun i => neighbours num den (i + 1)).find?
      (fun d => d.toBinary64 == .finite false m e) |>.isSome := by
    rw [List.find?_isSome]
    refine ⟨d, List.mem_flatMap.2 ⟨count - 1, List.mem_range.2 (by omega), ?_⟩, by simp [hdread]⟩
    rwa [Nat.sub_add_cancel hcount]
  obtain ⟨found, hfound⟩ := Option.isSome_iff_exists.1 hfound
  rw [hfound, Option.some_or, Option.getD_some]
  obtain ⟨i, hi, hmem⟩ := List.mem_flatMap.1 (List.mem_of_find?_eq_some hfound)
  exact ⟨i, List.mem_range.1 hi, hmem⟩

/-- No decimal with fewer digits is read as the value. -/
theorem significant_shortest_le (h : IsCanonical m e) (hm : 0 < m) {c : Decimal}
    (hle : digitCount c.digits ≤ maxDigits) (hread : c.toBinary64 = .finite false m e) :
    (shortest m e).significant.length ≤ digitCount c.digits := by
  obtain ⟨hdigits, -⟩ := Decimal.range_of_toBinary64 hm hread
  obtain ⟨hcount, -, hlt⟩ := Decimal.pow_digitCount_bounds hdigits
  obtain ⟨i, hi, hmem⟩ := shortest_mem_neighbours h hm hcount hle hlt hread
  have hpow := digits_le_of_mem_neighbours (pow_le_ratio h hm) hmem
  exact (Decimal.significant_length_le (Nat.succ_pos i) hpow).trans hi

end Shortest

end Binary64

end Splice
