import Splice.Proofs.Decimal.Shortest

/-!
# Written numbers are read back

A number that is written with a point is read back as itself.

* `Binary64.IsPointed`: a text with a point stands for a value.
* `Binary64.IsPointless`: infinity, and the values of one digit with an exponent.
* `Binary64.IsPointless.point_notMem`: these values are written without a point.
* `Binary64.isPointed_write`: all others are written with one, and stand for the value.
* `Binary64.IsPositional`: a value that is written with a point and without an exponent.
-/

namespace Splice

namespace Binary64

/-! ## Numbers with and without a point -/

/-- A text is digits, a point, digits and possibly an exponent, and stands for a value. -/
inductive IsPointed : Text → Binary64 → Prop
  | intro {whole fraction exponent : Text} {power : Int} {x : Binary64} (hwhole : whole ≠ [])
      (hfraction : fraction ≠ []) (hdigits : ∀ c ∈ whole ++ fraction, c.isDigit = true)
      (hexponent : IsExponent exponent power)
      (hvalue : ofDecimal false (decimalValue (whole ++ fraction)) (power - fraction.length) = x) :
      IsPointed (whole ++ ↑ '.' :: fraction ++ exponent) x

/-- Without an exponent, a text of digits and a point is one with the exponent zero. -/
theorem IsPointed.of_digits {whole fraction : Text} {x : Binary64} (hwhole : whole ≠ [])
    (hfraction : fraction ≠ []) (hdigits : ∀ c ∈ whole ++ fraction, c.isDigit = true)
    (hvalue : ofDecimal false (decimalValue (whole ++ fraction)) (0 - fraction.length) = x) :
    IsPointed (whole ++ ↑ '.' :: fraction) x := by
  rw [← List.append_nil (whole ++ ↑ '.' :: fraction)]
  exact .intro hwhole hfraction hdigits .none hvalue

/-- The value is written with digits, a point and digits. -/
def IsPositional (x : Binary64) : Prop :=
  ∃ whole fraction : Text, x.write = whole ++ ↑ '.' :: fraction ∧ whole ≠ [] ∧ fraction ≠ [] ∧
    ∀ c ∈ whole ++ fraction, c.isDigit = true

/-- Infinity, and the positive values of one digit below `0.0001` or with more than sixteen digits
before the point. -/
inductive IsPointless : Binary64 → Prop
  | infinity : IsPointless (.infinity false)
  | digit {d m : Nat} {power e : Int} (hdigit : d < 10) (hpower : power < -4 ∨ 15 < power)
      (hm : 0 < m) (hvalue : ofDecimal false d power = finite false m e) :
      IsPointless (.finite false m e)

end Binary64

namespace Decimal

open Binary64

section Notations

variable {d : Decimal}

/-- The significant digits stand for the decimal, as far as the zeros behind them are made up for
in the power of ten. -/
theorem exists_significant (hd : 0 < d.digits) : ∃ k,
    digitCount d.digits = d.significant.length + k ∧
    (∀ c ∈ d.significant, c.isDigit = true) ∧ 0 < decimalValue d.significant ∧
    ∀ (j : Nat) (power : Int), power = d.exponent + k - j →
      ofDecimal false (decimalValue d.significant * 10 ^ j) power = d.toBinary64 := by
  obtain ⟨k, hk⟩ := d.digitsOf_eq_significant
  have hvalue : d.digits = decimalValue d.significant * 10 ^ k := by
    rw [← decimalValue_append_zeros, ← hk, decimalValue_digitsOf]
  have hpos : 0 < decimalValue d.significant := by
    refine Nat.pos_of_ne_zero fun hzero => ?_
    rw [hzero, Nat.zero_mul] at hvalue
    omega
  refine ⟨k, ?_, fun c hc => ?_, hpos, fun j power hpower => ?_⟩
  · rw [digitCount, ← length_digitsOf, hk, List.length_append, length_zeros]
  · exact isDigit_of_mem_digitsOf (hk ▸ List.mem_append_left _ hc)
  -- Each zero at the end of the digits is worth a power of ten.
  · have hscale := @ofDecimal_scale false _ hpos k (d.exponent + k)
    rw [Int.add_sub_cancel, ← hvalue] at hscale
    rw [hpower, ofDecimal_scale hpos, ← hscale, Decimal.toBinary64]

theorem ne_nil_of_decimalValue_pos {t : Text} (h : 0 < decimalValue t) : t ≠ [] := by
  rintro rfl
  exact h.ne rfl

/-- Positional notation is digits, a point and digits that stand for the value. -/
theorem isPointed_positional (hd : 0 < d.digits) :
    IsPointed (positional d.significant (digitCount d.digits + d.exponent))
      d.toBinary64 := by
  obtain ⟨k, hlength, hdigits, hpos, hread⟩ := exists_significant hd
  have hne := ne_nil_of_decimalValue_pos hpos
  rw [hlength]
  generalize d.significant = digits at *
  generalize hplace : ((digits.length + k : Nat) : Int) + d.exponent = place
  unfold positional
  -- The point stands in front of the digits, among them or behind them, and zeros are put between
  -- where they do not meet.
  by_cases hsmall : place ≤ 0
  · rw [if_pos hsmall]
    change IsPointed (zeros 1 ++ ↑ '.' :: (zeros (-place).toNat ++ digits)) _
    refine .of_digits (by simp [zeros]) (by simp [hne]) ?_ ?_
    · simp only [List.forall_mem_append]
      exact ⟨fun _ => isDigit_of_mem_zeros, fun _ => isDigit_of_mem_zeros, hdigits⟩
    · have hvalue : decimalValue (zeros 1 ++ (zeros (-place).toNat ++ digits)) =
          decimalValue digits * 10 ^ 0 := by
        rw [Nat.pow_zero, Nat.mul_one, ← List.append_assoc]
        exact decimalValue_zeros_append ((-place).toNat + 1) digits
      rw [hvalue]
      refine hread 0 _ ?_
      rw [List.length_append, length_zeros]
      omega
  rw [if_neg hsmall]
  obtain ⟨n, rfl⟩ := Int.eq_ofNat_of_zero_le (Int.le_of_not_le hsmall)
  dsimp only
  rw [Int.toNat_natCast]
  by_cases hn : n < digits.length
  · have hfraction : digits.drop n ≠ [] := by
      rw [ne_eq, List.drop_eq_nil_iff]
      omega
    rw [if_neg hfraction, Nat.sub_eq_zero_of_le hn.le, zeros_zero, List.append_nil]
    have hwhole : digits.take n ≠ [] := by
      rw [ne_eq, List.take_eq_nil_iff, not_or]
      exact ⟨by omega, hne⟩
    refine .of_digits hwhole hfraction ?_ ?_
    · rw [List.take_append_drop]
      exact hdigits
    · rw [List.take_append_drop, ← Nat.mul_one (decimalValue digits)]
      refine hread 0 _ ?_
      rw [List.length_drop]
      omega
  · have hn := Nat.le_of_not_lt hn
    rw [List.drop_eq_nil_of_le hn, if_pos rfl, List.take_of_length_le hn]
    refine .of_digits (by simp [hne]) (by simp [zeros]) ?_ ?_
    · simp only [List.forall_mem_append]
      exact ⟨⟨hdigits, fun _ => isDigit_of_mem_zeros⟩, fun _ => isDigit_of_mem_zeros⟩
    · rw [List.append_assoc, zeros_append, decimalValue_append_zeros]
      refine hread _ _ ?_
      rw [length_zeros]
      omega

/-- So is scientific notation, if there is more than one digit. -/
theorem isPointed_scientific {layout : NumberLayout} (hd : 0 < d.digits)
    (hfraction : d.significant.drop 1 ≠ []) :
    IsPointed (scientific layout d.significant
      (digitCount d.digits + d.exponent - 1)) d.toBinary64 := by
  obtain ⟨k, hlength, hdigits, hpos, hread⟩ := exists_significant hd
  have hne := ne_nil_of_decimalValue_pos hpos
  rw [scientific, if_neg hfraction]
  refine .intro (by simpa using hne) hfraction ?_ (isExponent_decimalDigits _ _) ?_
  · rw [List.take_append_drop]
    exact hdigits
  · have hone : 0 < d.significant.length := List.length_pos_iff.2 hne
    rw [List.take_append_drop, ← Nat.mul_one (decimalValue _)]
    refine hread 0 _ ?_
    rw [List.length_drop]
    omega

/-- The decimal is written with a point: it is not too small or too great for positional notation,
or it has more than one digit. -/
def HasPoint (d : Decimal) : Prop :=
  -3 ≤ digitCount d.digits + d.exponent ∧ digitCount d.digits + d.exponent ≤ 16 ∨
    1 < d.significant.length

theorem write_eq (d : Decimal) : d.write .host =
    if -3 ≤ digitCount d.digits + d.exponent ∧ digitCount d.digits + d.exponent ≤ 16 then
      positional d.significant (digitCount d.digits + d.exponent)
    else scientific .host d.significant (digitCount d.digits + d.exponent - 1) := rfl

theorem isPointed_write (hd : 0 < d.digits) (h : d.HasPoint) :
    IsPointed (d.write .host) d.toBinary64 := by
  rw [write_eq]
  split
  next => exact isPointed_positional hd
  next hplace =>
    refine isPointed_scientific hd ?_
    rw [ne_eq, List.drop_eq_nil_iff]
    exact Nat.not_le.2 (h.resolve_left hplace)

/-- What has one digit and an exponent is written without a point. -/
theorem point_notMem_write (h : ¬d.HasPoint) : ↑ '.' ∉ d.write .host := by
  obtain ⟨hplace, hlength⟩ := not_or.1 h
  obtain ⟨k, hk⟩ := d.digitsOf_eq_significant
  have hdigits : ∀ c ∈ d.significant.take 1, c.isDigit = true := by
    intro c hc
    exact isDigit_of_mem_digitsOf (hk ▸ List.mem_append_left _ (List.mem_of_mem_take hc))
  have hfraction : d.significant.drop 1 = [] := by
    rw [List.drop_eq_nil_iff]
    exact Nat.not_lt.1 hlength
  have hexponent := (isExponent_decimalDigits NumberLayout.host.exponentWidth
    (digitCount d.digits + d.exponent - 1)).point_notMem
  rw [write_eq, if_neg hplace, scientific]
  simp only [hfraction, if_true, List.append_nil, List.mem_append, not_or]
  exact ⟨point_notMem_of_isDigit hdigits, hexponent⟩

/-- One digit with an exponent is the value of this digit. -/
theorem exists_digit (hd : 0 < d.digits) (h : ¬d.HasPoint) : ∃ (n : Nat) (power : Int),
    n < 10 ∧ (power < -4 ∨ 15 < power) ∧ ofDecimal false n power = d.toBinary64 := by
  obtain ⟨hplace, hlength⟩ := not_or.1 h
  obtain ⟨k, hcount, -, hpos, hread⟩ := exists_significant hd
  have hone : 0 < d.significant.length := List.length_pos_iff.2 (ne_nil_of_decimalValue_pos hpos)
  have hlt : decimalValue d.significant < 10 ^ d.significant.length := decimalValue_lt _
  rw [show d.significant.length = 1 by omega] at hlt hcount
  refine ⟨decimalValue d.significant, d.exponent + k, hlt, ?_, ?_⟩
  -- The place of the point is that of the one digit, and it is out of the positional range.
  · rw [hcount] at hplace
    omega
  · rw [← hread 0 (d.exponent + k) (by simp), Nat.pow_zero, Nat.mul_one]

end Notations

end Decimal

namespace Binary64

section Values

variable {m : Nat} {e : Int}

/-- The shortest decimal of a value of one digit with an exponent has one digit and an exponent. -/
theorem not_hasPoint_shortest (hcanonical : IsCanonical m e) (hm : 0 < m) {d : Nat} {power : Int}
    (hdigit : d < 10) (hpower : power < -4 ∨ 15 < power)
    (hvalue : ofDecimal false d power = .finite false m e) : ¬(shortest m e).HasPoint := by
  have hread := toBinary64_shortest hcanonical hm
  have hc : (⟨d, power⟩ : Decimal).toBinary64 = .finite false m e := hvalue
  obtain ⟨hle, hlt⟩ := Decimal.value_bounds (Decimal.range_of_toBinary64 hm hread).1
  have hpos : 0 < d := (Decimal.range_of_toBinary64 hm hc).1
  have ten_le {j k : Int} (h : j ≤ k) : (10 : ℚ) ^ j ≤ 10 ^ k := zpow_le_zpow_right₀ (by norm_num) h
  rintro (⟨hlower, hupper⟩ | hmore)
  · rcases hpower with hsmall | hgreat
    · -- Between the digit and the shortest decimal lie two numbers with different values.
      have hnine : (⟨d, power⟩ : Decimal).value ≤ (⟨9, -5⟩ : Decimal).value :=
        Decimal.value_mono (Nat.le_of_lt_succ hdigit) (Int.le_sub_one_of_lt hsmall)
      have hone : (⟨9, -5⟩ : Decimal).value ≤ (⟨1, -4⟩ : Decimal).value := by
        norm_num [Decimal.value]
      have hshortest : (⟨1, -4⟩ : Decimal).value ≤ (shortest m e).value := by
        rw [Decimal.value_one]
        exact (ten_le (by omega)).trans hle
      have hnine' := Decimal.toBinary64_convex hm hc hread hnine (hone.trans hshortest)
      have hone' := Decimal.toBinary64_convex hm hc hread (hnine.trans hone) hshortest
      have hne : (⟨9, -5⟩ : Decimal).toBinary64 ≠ (⟨1, -4⟩ : Decimal).toBinary64 := by
        decide +kernel
      exact hne (hnine'.trans hone'.symm)
    · -- Between them lies `10 ^ 16`, so this is the value.
      have hshortest : (shortest m e).value ≤ (⟨1, 16⟩ : Decimal).value := by
        rw [Decimal.value_one]
        exact hlt.le.trans (ten_le hupper)
      have hgreat' : (⟨1, 16⟩ : Decimal).value ≤ (⟨d, power⟩ : Decimal).value :=
        Decimal.value_mono hpos hgreat
      have hvalue := Decimal.toBinary64_convex hm hread hc hshortest hgreat'
      have hexact : (⟨1, 16⟩ : Decimal).toBinary64 = .finite false 5000000000000000 1 := by
        decide +kernel
      cases hexact.symm.trans hvalue
      exact absurd hupper (by decide +kernel)
  -- The digit is read as the value too, so the shortest decimal has no more digits.
  · have hone : digitCount d ≤ 1 :=
      (Nat.length_toDigits_le_iff (by decide : 1 < 10) Nat.one_pos).2 hdigit
    have hcount := significant_shortest_le hcanonical hm (hone.trans (by decide)) hc
    exact absurd hmore (Nat.not_lt.2 (hcount.trans hone))

/-- A finite positive value is written as its shortest decimal. -/
theorem write_finite (hm : 0 < m) : write (.finite false m e) = (shortest m e).write .host := by
  have hmagnitude : writeMagnitude .host m e = (shortest m e).write .host := if_neg hm.ne'
  simp only [write, Bool.false_eq_true, if_false, hmagnitude]

end Values

variable {x : Binary64} {digits : Nat} {exponent : Int}

theorem IsPointless.point_notMem (h : x.IsPointless) : ↑ '.' ∉ x.write := by
  cases h with
  | infinity => decide
  | digit hdigit hpower hm hvalue =>
    rw [write_finite hm]
    exact Decimal.point_notMem_write
      (not_hasPoint_shortest (isCanonical_of_ofDecimal hvalue) hm hdigit hpower hvalue)

/-- A value that is read is written with a point and read back, unless it is written without. -/
theorem isPointed_write (hx : x = ofDecimal false digits exponent) (h : ¬x.IsPointless) :
    IsPointed x.write x := by
  rcases ofDecimal_cases digits exponent with hinfinite | ⟨m, e, hfinite⟩
  · exact absurd (hx.trans hinfinite ▸ .infinity) h
  have hcanonical := isCanonical_of_ofDecimal hfinite
  obtain rfl : x = .finite false m e := hx.trans hfinite
  -- Zero has no shortest decimal and is written as it is.
  rcases Nat.eq_zero_or_pos m with rfl | hm
  · have hvalue : ofDecimal false (decimalValue (zeros 1 ++ zeros 1)) (0 - (zeros 1).length) =
        .finite false 0 e := by
      rw [hcanonical.normal.resolve_left (by decide)]
      rfl
    refine @IsPointed.of_digits (zeros 1) (zeros 1) _ (by decide) (by decide) ?_ hvalue
    rw [zeros_append]
    exact fun _ => isDigit_of_mem_zeros
  have hread := toBinary64_shortest hcanonical hm
  have hdigits := (Decimal.range_of_toBinary64 hm hread).1
  have hpoint : (shortest m e).HasPoint := by
    by_contra hpoint
    obtain ⟨n, power, hn, hpower, hvalue⟩ := Decimal.exists_digit hdigits hpoint
    exact h (.digit hn hpower hm (hvalue.trans hread))
  have hpointed := Decimal.isPointed_write hdigits hpoint
  rwa [hread, ← write_finite hm] at hpointed

theorem IsPositional.not_isPointless (h : x.IsPositional) : ¬x.IsPointless := by
  obtain ⟨whole, fraction, hwrite, -⟩ := h
  intro hpointless
  refine hpointless.point_notMem ?_
  rw [hwrite]
  exact List.mem_append_right _ (List.mem_cons_self ..)

end Binary64

end Splice
