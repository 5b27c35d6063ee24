import Mathlib.Data.Int.Log
import Mathlib.Data.Rat.Floor
import Mathlib.Tactic.FieldSimp
import Mathlib.Tactic.Linarith
import Mathlib.Tactic.Positivity
import Splice.Decimal.Binary64

/-!
# Rounding to binary values

The binary value nearest to a quotient depends on the rational number alone, and a number that is a
binary value is its own nearest one.

* `magnitude_eq_log`: the exponent of the highest binary digit is the logarithm.
* `Binary64.ofRatio_congr`: equal quotients are rounded to the same value.
* `Binary64.IsCanonical`: the mantissas and exponents of finite values.
* `Binary64.ofRatio_exact`: a binary value is its own nearest one.
* `Binary64.RoundsTo.convex`: what lies between two numbers that are rounded to one value is rounded
  to it, too.
-/

namespace Splice

section Ratios

variable {num den num' den' : Nat}

theorem cross_of_div_eq (hden : 0 < den) (hden' : 0 < den')
    (h : (num : ℚ) / den = num' / den') : num * den' = num' * den := by
  have hcross := (div_eq_div_iff (Nat.cast_ne_zero.2 hden.ne') (Nat.cast_ne_zero.2 hden'.ne')).1 h
  exact_mod_cast hcross

theorem num_pos_of_div_pos (h : (0 : ℚ) < num / den) : 0 < num := by
  refine Nat.pos_of_ne_zero ?_
  rintro rfl
  rw [Nat.cast_zero, zero_div] at h
  exact h.false

theorem roundRatio_mul (num den : Nat) {c : Nat} (hc : 0 < c) :
    roundRatio (num * c) (den * c) = roundRatio num den := by
  unfold roundRatio
  rw [Nat.mul_div_mul_right _ _ hc, Nat.mul_mod_mul_right, ← Nat.mul_assoc]
  have hcompare : compare (2 * (num % den) * c) (den * c) = compare (2 * (num % den)) den := by
    simp only [Nat.compare_eq_ite_lt, Nat.mul_lt_mul_right hc]
  rw [hcompare]

/-- Rounding depends on the quotient alone. -/
theorem roundRatio_congr (hden : 0 < den) (hden' : 0 < den')
    (h : (num : ℚ) / den = num' / den') : roundRatio num den = roundRatio num' den' := by
  rw [← roundRatio_mul num den hden', ← roundRatio_mul num' den' hden,
    cross_of_div_eq hden hden' h, Nat.mul_comm den]

theorem roundRatio_mul_self (m : Nat) (hden : 0 < den) : roundRatio (m * den) den = m := by
  unfold roundRatio
  rw [Nat.mul_mod_left, Nat.mul_div_left _ hden, Nat.mul_zero, Nat.compare_eq_lt.2 hden]

theorem div_le_roundRatio (num den : Nat) : num / den ≤ roundRatio num den := by
  unfold roundRatio
  dsimp only
  split <;> omega

theorem roundRatio_le_div (num den : Nat) : roundRatio num den ≤ num / den + 1 := by
  unfold roundRatio
  dsimp only
  split <;> omega

/-- A quotient at most a natural number is not rounded up beyond it. -/
theorem roundRatio_le {m : Nat} (hden : 0 < den) (h : num ≤ m * den) : roundRatio num den ≤ m := by
  rcases Nat.eq_or_lt_of_le h with rfl | hlt
  · rw [roundRatio_mul_self m hden]
  · exact (roundRatio_le_div num den).trans ((Nat.div_lt_iff_lt_mul hden).2 hlt)

/-- A quotient at least a natural number is not rounded down below it. -/
theorem le_roundRatio {m : Nat} (hden : 0 < den) (h : m * den ≤ num) : m ≤ roundRatio num den :=
  ((Nat.le_div_iff_mul_le hden).2 h).trans (div_le_roundRatio num den)

/-- A greater number is not rounded to a smaller one. -/
theorem roundRatio_le_roundRatio {num num' : Nat} (den : Nat) (h : num ≤ num') :
    roundRatio num den ≤ roundRatio num' den := by
  rcases Nat.eq_or_lt_of_le (Nat.div_le_div_right (c := den) h) with heq | hlt
  · have hmod : num % den ≤ num' % den := by
      have hnum := Nat.div_add_mod num den
      have hnum' := Nat.div_add_mod num' den
      rw [heq] at hnum
      omega
    unfold roundRatio
    rw [heq]
    dsimp only
    split
    next => split <;> omega
    next hgt =>
      have hgt := Nat.compare_eq_gt.1 hgt
      rw [Nat.compare_eq_gt.2 (by omega)]
    next heven =>
      have heven := Nat.compare_eq_eq.1 heven
      split
      next hlt =>
        have hlt := Nat.compare_eq_lt.1 hlt
        omega
      next => omega
      next => omega
  · exact (roundRatio_le_div num den).trans (Nat.le_trans hlt (div_le_roundRatio num' den))

theorem roundRatio_mono (hden : 0 < den) (hden' : 0 < den')
    (h : (num : ℚ) / den ≤ num' / den') : roundRatio num den ≤ roundRatio num' den' := by
  have hcross : num * den' ≤ num' * den := by
    rw [div_le_div_iff₀ (Nat.cast_pos.2 hden) (Nat.cast_pos.2 hden')] at h
    exact_mod_cast h
  rw [← roundRatio_mul num den hden', ← roundRatio_mul num' den' hden, Nat.mul_comm den' den]
  exact roundRatio_le_roundRatio _ hcross

theorem scaleRatio_den_pos (hden : 0 < den) (e : Int) : 0 < (scaleRatio num den e).2 := by
  unfold scaleRatio
  split
  · exact hden
  · positivity

theorem scaleRatio_div (num den : Nat) (e : Int) :
    ((scaleRatio num den e).1 : ℚ) / (scaleRatio num den e).2 = num / den * 2 ^ e := by
  unfold scaleRatio
  split
  next h =>
    obtain ⟨k, rfl⟩ := Int.eq_ofNat_of_zero_le h
    simp only [Int.toNat_natCast, Nat.cast_mul, Nat.cast_pow, Nat.cast_ofNat, zpow_natCast]
    ring
  next h =>
    obtain ⟨k, hk⟩ := Int.eq_ofNat_of_zero_le (Int.neg_nonneg_of_nonpos (Int.le_of_not_le h))
    obtain rfl : e = -k := by omega
    simp only [neg_neg, Int.toNat_natCast, Nat.cast_mul, Nat.cast_pow, Nat.cast_ofNat, zpow_neg,
      zpow_natCast]
    rw [div_mul_eq_div_div, div_eq_mul_inv (_ / _)]

/-! ## The highest digit -/

theorem log_eq_of_zpow {q : ℚ} {e : Int} (hle : (2 : ℚ) ^ e ≤ q) (hlt : q < 2 ^ (e + 1)) :
    Int.log 2 q = e := by
  have hpos : 0 < q := lt_of_lt_of_le (zpow_pos two_pos e) hle
  have hlower : e ≤ Int.log 2 q :=
    (Int.zpow_le_iff_le_log (by decide) hpos).1 (by exact_mod_cast hle)
  have hupper : Int.log 2 q < e + 1 :=
    (Int.lt_zpow_iff_log_lt (by decide) hpos).1 (by exact_mod_cast hlt)
  omega

/-- The quotient of the highest digits is off by one at most. -/
theorem zpow_log2_bounds (hnum : 0 < num) (hden : 0 < den) :
    (2 : ℚ) ^ ((num.log2 : Int) - den.log2 - 1) ≤ num / den ∧
      (num : ℚ) / den < 2 ^ ((num.log2 : Int) - den.log2 + 1) := by
  have hlower (n : Nat) (hn : 0 < n) : (2 : ℚ) ^ (n.log2 : Int) ≤ n := by
    exact_mod_cast Nat.log2_self_le hn.ne'
  have hupper (n : Nat) : (n : ℚ) < 2 ^ ((n.log2 : Int) + 1) := by
    exact_mod_cast Nat.lt_log2_self (n := n)
  have hd : (0 : ℚ) < den := Nat.cast_pos.2 hden
  constructor
  · rw [le_div_iff₀ hd]
    calc (2 : ℚ) ^ ((num.log2 : Int) - den.log2 - 1) * den
        ≤ 2 ^ ((num.log2 : Int) - den.log2 - 1) * 2 ^ ((den.log2 : Int) + 1) :=
          mul_le_mul_of_nonneg_left (hupper den).le (zpow_pos two_pos _).le
      _ = 2 ^ (num.log2 : Int) := by
          rw [← zpow_add₀ (by norm_num)]
          congr 1
          omega
      _ ≤ num := hlower num hnum
  · rw [div_lt_iff₀ hd]
    calc (num : ℚ) < 2 ^ ((num.log2 : Int) + 1) := hupper num
      _ = 2 ^ ((num.log2 : Int) - den.log2 + 1) * 2 ^ (den.log2 : Int) := by
          rw [← zpow_add₀ (by norm_num)]
          congr 1
          omega
      _ ≤ 2 ^ ((num.log2 : Int) - den.log2 + 1) * den :=
          mul_le_mul_of_nonneg_left (hlower den hden) (zpow_pos two_pos _).le

/-- The exponent of the highest binary digit is the logarithm. -/
theorem magnitude_eq_log (hnum : 0 < num) (hden : 0 < den) :
    Binary64.magnitude num den = Int.log 2 ((num : ℚ) / den) := by
  obtain ⟨hlower, hupper⟩ := zpow_log2_bounds hnum hden
  unfold Binary64.magnitude
  dsimp only
  generalize hestimate : (num.log2 : Int) - den.log2 = estimate at *
  have hpos : 0 < (scaleRatio num den (-estimate)).2 := scaleRatio_den_pos hden (-estimate)
  have hscaled := scaleRatio_div num den (-estimate)
  -- The estimate of the magnitude is right, or one too great.
  have hiff : (scaleRatio num den (-estimate)).2 ≤ (scaleRatio num den (-estimate)).1 ↔
      (2 : ℚ) ^ estimate ≤ num / den := by
    rw [← Nat.cast_le (α := ℚ), ← one_le_div (Nat.cast_pos.2 hpos), hscaled, zpow_neg,
      ← div_eq_mul_inv, one_le_div (zpow_pos two_pos _)]
  split
  next h => exact (log_eq_of_zpow (hiff.1 h) hupper).symm
  next h =>
    refine (log_eq_of_zpow hlower ?_).symm
    rw [Int.sub_add_cancel]
    exact lt_of_not_ge fun hle => h (hiff.2 hle)

end Ratios

namespace Binary64

/-- The exponent of the last binary digit that a mantissa has room for. -/
def unitExponent (num den : Nat) : Int := max (magnitude num den - (precision - 1)) leastExponent

/-- The value with a rounded mantissa, which may have become one digit too long. -/
def assemble (negative : Bool) (m : Nat) (e : Int) : Binary64 :=
  let (m, e) := if m = 2 ^ precision then (2 ^ (precision - 1), e + 1) else (m, e)
  if greatestExponent < e then .infinity negative else .finite negative m e

/-- The mantissas and exponents of finite values. -/
structure IsCanonical (m : Nat) (e : Int) : Prop where
  lt : m < 2 ^ precision
  least : leastExponent ≤ e
  greatest : e ≤ greatestExponent
  normal : 2 ^ (precision - 1) ≤ m ∨ e = leastExponent

section Ratios

variable {num den num' den' : Nat} {negative : Bool} {m : Nat} {e : Int}

theorem ofRatio_eq_assemble (hnum : 0 < num) : ofRatio negative num den =
    assemble negative
      (roundRatio (scaleRatio num den (-unitExponent num den)).1
        (scaleRatio num den (-unitExponent num den)).2) (unitExponent num den) := by
  rw [ofRatio, if_neg hnum.ne']
  rfl

/-- Equal quotients are rounded to the same value. -/
theorem ofRatio_congr (hden : 0 < den) (hden' : 0 < den') (h : (num : ℚ) / den = num' / den')
    (negative : Bool) : ofRatio negative num den = ofRatio negative num' den' := by
  have hcross := cross_of_div_eq hden hden' h
  rcases Nat.eq_zero_or_pos num with rfl | hnum
  · obtain rfl : num' = 0 := by
      rw [Nat.zero_mul] at hcross
      exact (Nat.mul_eq_zero.1 hcross.symm).resolve_right hden.ne'
    rw [ofRatio, ofRatio, if_pos rfl, if_pos rfl]
  · have hnum' : 0 < num' := by
      refine Nat.pos_of_ne_zero ?_
      rintro rfl
      rw [Nat.zero_mul] at hcross
      exact (Nat.mul_pos hnum hden').ne' hcross
    -- The place of the last digit depends on the quotient alone, and so does the mantissa.
    have hunit : unitExponent num den = unitExponent num' den' := by
      rw [unitExponent, unitExponent, magnitude_eq_log hnum hden, magnitude_eq_log hnum' hden', h]
    rw [ofRatio_eq_assemble hnum, ofRatio_eq_assemble hnum', hunit]
    congr 1
    refine roundRatio_congr (scaleRatio_den_pos hden _) (scaleRatio_den_pos hden' _) ?_
    rw [scaleRatio_div, scaleRatio_div, h]

theorem unitExponent_mono (hnum : 0 < num) (hden : 0 < den) (hden' : 0 < den')
    (h : (num : ℚ) / den ≤ num' / den') : unitExponent num den ≤ unitExponent num' den' := by
  have hpos : (0 : ℚ) < num / den := div_pos (Nat.cast_pos.2 hnum) (Nat.cast_pos.2 hden)
  have hnum' := num_pos_of_div_pos (hpos.trans_le h)
  have hlog := Int.log_mono_right (b := 2) hpos h
  rw [unitExponent, unitExponent, magnitude_eq_log hnum hden, magnitude_eq_log hnum' hden']
  omega

/-- With the same last digit, a greater quotient has no smaller mantissa. -/
theorem mantissa_mono (hden : 0 < den) (hden' : 0 < den')
    (h : (num : ℚ) / den ≤ num' / den') (e : Int) :
    roundRatio (scaleRatio num den e).1 (scaleRatio num den e).2 ≤
      roundRatio (scaleRatio num' den' e).1 (scaleRatio num' den' e).2 := by
  refine roundRatio_mono (scaleRatio_den_pos hden e) (scaleRatio_den_pos hden' e) ?_
  rw [scaleRatio_div, scaleRatio_div]
  exact mul_le_mul_of_nonneg_right h (zpow_pos two_pos e).le

/-- The rounded mantissa of a quotient has the right length. -/
theorem roundRatio_bounds (hnum : 0 < num) (hden : 0 < den) :
    let scaled := scaleRatio num den (-unitExponent num den)
    roundRatio scaled.1 scaled.2 ≤ 2 ^ precision ∧
      (2 ^ (precision - 1) ≤ roundRatio scaled.1 scaled.2 ∨
        unitExponent num den = leastExponent) := by
  intro scaled
  have hq : (0 : ℚ) < num / den := div_pos (Nat.cast_pos.2 hnum) (Nat.cast_pos.2 hden)
  have hpos : 0 < scaled.2 := scaleRatio_den_pos hden _
  have hscaled : (scaled.1 : ℚ) / scaled.2 = num / den * 2 ^ (-unitExponent num den) :=
    scaleRatio_div num den _
  have hpos' : (0 : ℚ) < scaled.2 := Nat.cast_pos.2 hpos
  have hlog := magnitude_eq_log hnum hden
  have hlt : (num : ℚ) / den < 2 ^ (magnitude num den + 1) := by
    rw [hlog]
    exact_mod_cast Int.lt_zpow_succ_log_self (by decide : 1 < 2) ((num : ℚ) / den)
  have hle : (2 : ℚ) ^ magnitude num den ≤ num / den := by
    rw [hlog]
    exact_mod_cast Int.zpow_log_le_self (by decide : 1 < 2) hq
  -- From here on only the bounds of the quotient matter, and that the unit is no smaller than its
  -- last digit asks for.
  generalize hunit : unitExponent num den = unit at *
  have hunit_le : magnitude num den - (precision - 1) ≤ unit := by
    rw [← hunit]
    exact Int.le_max_left ..
  constructor
  · refine roundRatio_le hpos ?_
    have hupper : (scaled.1 : ℚ) / scaled.2 ≤ 2 ^ precision := by
      calc (scaled.1 : ℚ) / scaled.2 ≤ 2 ^ (magnitude num den + 1) * 2 ^ (-unit) := by
            rw [hscaled]
            exact mul_le_mul_of_nonneg_right hlt.le (zpow_pos two_pos _).le
        _ ≤ 2 ^ (precision : Int) := by
            rw [← zpow_add₀ two_ne_zero]
            exact zpow_le_zpow_right₀ one_le_two (by simp only [precision] at *; omega)
        _ = 2 ^ precision := zpow_natCast 2 precision
    rw [div_le_iff₀ hpos'] at hupper
    exact_mod_cast hupper
  -- A mantissa may be short only where the exponent can go no lower.
  · by_cases hleast : unit = leastExponent
    · exact .inr hleast
    · left
      have hunit : unit = magnitude num den - (precision - 1) := by
        rw [unitExponent] at hunit
        omega
      refine le_roundRatio hpos ?_
      have hlower : (2 : ℚ) ^ (precision - 1) ≤ scaled.1 / scaled.2 := by
        calc (2 : ℚ) ^ (precision - 1) = 2 ^ magnitude num den * 2 ^ (-unit) := by
              rw [← zpow_add₀ two_ne_zero, ← zpow_natCast]
              congr 1
              simp only [precision] at *
              omega
          _ ≤ scaled.1 / scaled.2 := by
              rw [hscaled]
              exact mul_le_mul_of_nonneg_right hle (zpow_pos two_pos _).le
      rw [le_div_iff₀ hpos'] at hlower
      exact_mod_cast hlower

/-- A mantissa that has become one digit too long is halved. -/
theorem assemble_cases {k : Nat} {u : Int} {sign : Bool}
    (h : assemble negative k u = .finite sign m e) :
    (k = 2 ^ precision ∧ m = 2 ^ (precision - 1) ∧ e = u + 1 ∨
      k ≠ 2 ^ precision ∧ m = k ∧ e = u) ∧ e ≤ greatestExponent := by
  unfold assemble at h
  split at h
  next m₁ e₁ heq =>
    split at h
    next => cases h
    next hgreatest =>
      cases h
      refine ⟨?_, Int.not_lt.1 hgreatest⟩
      split at heq
      next hk =>
        cases heq
        exact .inl ⟨hk, rfl, rfl⟩
      next hk =>
        cases heq
        exact .inr ⟨hk, rfl, rfl⟩

theorem assemble_eq_finite {sign : Bool} {m' : Nat} {e' : Int} (hm : m ≤ 2 ^ precision)
    (hleast : leastExponent ≤ e) (hnormal : 2 ^ (precision - 1) ≤ m ∨ e = leastExponent)
    (h : assemble negative m e = .finite sign m' e') : IsCanonical m' e' := by
  obtain ⟨hcases, hgreatest⟩ := assemble_cases h
  rcases hcases with ⟨-, rfl, rfl⟩ | ⟨hne, rfl, rfl⟩
  · exact ⟨by decide, by omega, hgreatest, .inl (Nat.le_refl _)⟩
  · exact ⟨Nat.lt_of_le_of_ne hm hne, hleast, hgreatest, hnormal⟩

/-- Rounded values are canonical. -/
theorem isCanonical_of_ofRatio {sign : Bool} (hden : 0 < den)
    (h : ofRatio negative num den = .finite sign m e) : IsCanonical m e := by
  rcases Nat.eq_zero_or_pos num with rfl | hnum
  · rw [ofRatio, if_pos rfl] at h
    cases h
    exact ⟨by decide, Int.le_refl _, by decide, .inr rfl⟩
  · rw [ofRatio_eq_assemble hnum] at h
    obtain ⟨hle, hnormal⟩ := roundRatio_bounds hnum hden
    exact assemble_eq_finite hle (Int.le_max_right ..) hnormal h

/-- The last digit of a binary value is where a mantissa ends. -/
theorem unitExponent_eq (hcanonical : IsCanonical m e) (hm : 0 < m) (hnum : 0 < num)
    (hden : 0 < den) (h : (num : ℚ) / den = m * 2 ^ e) : unitExponent num den = e := by
  have hm' : (0 : ℚ) < m := Nat.cast_pos.2 hm
  have hlog : magnitude num den < precision + e := by
    rw [magnitude_eq_log hnum hden, ← Int.lt_zpow_iff_log_lt (by decide) (by
      rw [h]
      exact mul_pos hm' (zpow_pos two_pos e)), h, Nat.cast_ofNat, zpow_add₀ two_ne_zero]
    refine mul_lt_mul_of_pos_right ?_ (zpow_pos two_pos e)
    exact_mod_cast hcanonical.lt
  have hleast := hcanonical.least
  rw [unitExponent]
  -- With all its digits a mantissa fixes the magnitude; a short one stands at the least exponent.
  rcases hcanonical.normal with hnormal | rfl
  · have hlog' : ((precision - 1 : Nat) : Int) + e ≤ magnitude num den := by
      rw [magnitude_eq_log hnum hden, ← Int.zpow_le_iff_le_log (by decide) (by
        rw [h]
        exact mul_pos hm' (zpow_pos two_pos e)), h, Nat.cast_ofNat, zpow_add₀ two_ne_zero]
      refine mul_le_mul_of_nonneg_right ?_ (zpow_pos two_pos e).le
      exact_mod_cast hnormal
    simp only [precision] at *
    omega
  · simp only [precision] at *
    omega

/-- A binary value is its own nearest one. -/
theorem ofRatio_exact (hcanonical : IsCanonical m e) (hden : 0 < den)
    (h : (num : ℚ) / den = m * 2 ^ e) : ofRatio negative num den = .finite negative m e := by
  rcases Nat.eq_zero_or_pos m with rfl | hm
  · have hnum : num = 0 := by
      rw [Nat.cast_zero, zero_mul, div_eq_zero_iff] at h
      exact_mod_cast h.resolve_right (Nat.cast_ne_zero.2 hden.ne')
    have he : e = leastExponent := hcanonical.normal.resolve_left (by decide)
    rw [ofRatio, if_pos hnum, he]
  · have hnum : 0 < num := by
      refine Nat.pos_of_ne_zero ?_
      rintro rfl
      rw [Nat.cast_zero, zero_div] at h
      exact (mul_pos (Nat.cast_pos.2 hm) (zpow_pos two_pos e)).ne h
    have hunit := unitExponent_eq hcanonical hm hnum hden h
    have hround : roundRatio (scaleRatio num den (-e)).1 (scaleRatio num den (-e)).2 = m := by
      rw [← roundRatio_mul_self m Nat.one_pos]
      refine roundRatio_congr (scaleRatio_den_pos hden _) Nat.one_pos ?_
      rw [scaleRatio_div, h, mul_assoc, ← zpow_add₀ two_ne_zero, Int.add_right_neg, zpow_zero]
      simp
    rw [ofRatio_eq_assemble hnum, hunit, hround, assemble, if_neg hcanonical.lt.ne]
    exact if_neg (Int.not_lt.2 hcanonical.greatest)

end Ratios

/-! ## Numbers between others -/

/-- A rational number is rounded to a value. -/
def RoundsTo (q : ℚ) (x : Binary64) : Prop :=
  ∃ num den : Nat, 0 < den ∧ (num : ℚ) / den = q ∧ ofRatio false num den = x

namespace RoundsTo

variable {q r s : ℚ} {m : Nat} {e : Int}

theorem exact (h : IsCanonical m e) : RoundsTo (m * 2 ^ e) (.finite false m e) := by
  have hq : ((scaleRatio m 1 e).1 : ℚ) / (scaleRatio m 1 e).2 = m * 2 ^ e := by
    rw [scaleRatio_div, Nat.cast_one, div_one]
  exact ⟨_, _, scaleRatio_den_pos Nat.one_pos e, hq,
    ofRatio_exact h (scaleRatio_den_pos Nat.one_pos e) hq⟩

/-- What lies between two numbers that are rounded to one value is rounded to it, too. -/
theorem convex (hq : RoundsTo q (.finite false m e)) (hs : RoundsTo s (.finite false m e))
    (hpos : 0 < q) (hqr : q ≤ r) (hrs : r ≤ s) : RoundsTo r (.finite false m e) := by
  have hr : 0 < r := hpos.trans_le hqr
  -- A rational number is a quotient of naturals, as the rounding wants it.
  have hratio : (r.num.toNat : ℚ) / r.den = r := by
    have hnum : ((r.num.toNat : Int) : ℚ) = r.num :=
      congrArg _ (Int.toNat_of_nonneg (Rat.num_nonneg.2 hr.le))
    rw [← Int.cast_natCast, hnum, Rat.num_div_den]
  refine ⟨r.num.toNat, r.den, r.den_pos, hratio, ?_⟩
  rw [← hratio] at hqr hrs hr
  have hden := r.den_pos
  generalize r.num.toNat = num, r.den = den at *
  obtain ⟨numq, denq, hdenq, rfl, hq⟩ := hq
  obtain ⟨nums, dens, hdens, rfl, hs⟩ := hs
  have hnumq := num_pos_of_div_pos hpos
  have hnum := num_pos_of_div_pos hr
  have hnums := num_pos_of_div_pos (hr.trans_le hrs)
  have hunitq := unitExponent_mono hnumq hdenq hden hqr
  have hunits := unitExponent_mono hnum hden hdens hrs
  have hmantissaq := mantissa_mono hdenq hden hqr (-unitExponent numq denq)
  have hmantissas := mantissa_mono hden hdens hrs (-unitExponent nums dens)
  obtain ⟨hlong, hnormal⟩ := roundRatio_bounds hnum hden
  have hleast : leastExponent ≤ unitExponent numq denq := Int.le_max_right ..
  rw [ofRatio_eq_assemble hnumq] at hq
  rw [ofRatio_eq_assemble hnums] at hs
  rw [ofRatio_eq_assemble hnum]
  obtain ⟨hcasesq, -⟩ := assemble_cases hq
  obtain ⟨hcasess, -⟩ := assemble_cases hs
  by_cases hunit : unitExponent num den = unitExponent numq denq
  · -- The mantissa in the middle is that of the smaller number.
    rw [hunit] at hlong ⊢
    rw [Nat.le_antisymm _ hmantissaq]
    · exact hq
    rcases hcasesq with ⟨hk, -, -⟩ | ⟨-, hk, he⟩
    · rw [hk]
      exact hlong
    · have hunit' : unitExponent nums dens = unitExponent numq denq := by omega
      rw [hunit'] at hmantissas hcasess
      omega
  · -- The smaller number was rounded up to a power of two, from which the mantissas grow.
    have hunit' : unitExponent num den = unitExponent nums dens := by omega
    rw [hunit'] at hnormal hunit ⊢
    rw [Nat.le_antisymm hmantissas _]
    · exact hs
    · omega

end RoundsTo

end Binary64

end Splice
