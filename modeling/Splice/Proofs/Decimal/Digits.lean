import Mathlib.Algebra.Group.Nat.Defs
import Splice.Decimal.Notation
import Splice.Text.Digit

/-!
# Rows of ASCII digits

* `decimalValue_digitsOf`: reading the digits of a number gives the number.
* `decimalValue_append_zeros`: zeros behind the digits scale the number.
* `decimalValue_lt`: how great a number of so many digits can be.
* `IsExponent`: the exponents of written numbers.
-/

namespace Splice

theorem toNat_of_isDigit {c : CodePoint} (h : c.isDigit = true) :
    48 ≤ c.toNat ∧ c.toNat ≤ 57 := by
  cases c with
  | scalar c =>
    simp only [CodePoint.isDigit_scalar, Char.isDigit, Bool.and_eq_true, decide_eq_true_eq] at h
    exact ⟨UInt32.le_iff_toNat_le.1 h.1, UInt32.le_iff_toNat_le.1 h.2⟩
  | surrogate => cases h

theorem digitValue?_of_isDigit {c : CodePoint} (h : c.isDigit = true) :
    digitValue? c = some (c.toNat - 48) := by
  have hrange := toNat_of_isDigit h
  have hfirst : (decide (48 ≤ c.toNat) && decide (c.toNat < 48 + 10)) = true := by
    simp only [Bool.and_eq_true, decide_eq_true_eq]
    omega
  rw [digitValue?, digitZeros, List.find?_cons, hfirst]
  rfl

theorem isDecimal_of_isDigit {c : CodePoint} (h : c.isDigit = true) : isDecimal c = true := by
  rw [isDecimal, digitValue?_of_isDigit h]
  rfl

theorem decimalValue_ofChars {cs : List Char} (h : ∀ c ∈ cs, c.isDigit = true) :
    decimalValue (Text.ofChars cs) = Nat.ofDigitChars 10 cs 0 := by
  have hfold (n : Nat) : (Text.ofChars cs).foldl (fun n c => n * 10 + (digitValue? c).getD 0) n =
      Nat.ofDigitChars 10 cs n := by
    induction cs generalizing n with
    | nil => rfl
    | cons c cs ih =>
      obtain ⟨hc, hcs⟩ := List.forall_mem_cons.1 h
      rw [Text.ofChars_cons, List.foldl_cons, ih hcs, Nat.ofDigitChars_cons,
        digitValue?_of_isDigit (c := c) hc, Nat.mul_comm 10 n]
      rfl
  exact hfold 0

theorem isDigit_of_mem_digitsOf {n : Nat} {c : CodePoint} (h : c ∈ digitsOf n) :
    c.isDigit = true := by
  obtain ⟨d, hd, rfl⟩ := Text.mem_ofChars.1 h
  exact Nat.isDigit_of_mem_toDigits (by decide) (by decide) hd

/-- Reading the digits of a number gives the number. -/
theorem decimalValue_digitsOf (n : Nat) : decimalValue (digitsOf n) = n := by
  have hdigits (c : Char) : c ∈ Nat.toDigits 10 n → c.isDigit = true :=
    Nat.isDigit_of_mem_toDigits (by decide) (by decide)
  rw [digitsOf, decimalValue_ofChars hdigits, Nat.ofDigitChars_ten_toDigits]

theorem length_digitsOf (n : Nat) : (digitsOf n).length = (Nat.toDigits 10 n).length :=
  List.length_map _

theorem length_zeros (k : Nat) : (zeros k).length = k := List.length_replicate

theorem zeros_zero : zeros 0 = [] := rfl

theorem zeros_append (j k : Nat) : zeros j ++ zeros k = zeros (j + k) :=
  List.replicate_append_replicate

theorem isDigit_of_mem_zeros {k : Nat} {c : CodePoint} (h : c ∈ zeros k) : c.isDigit = true := by
  obtain ⟨-, rfl⟩ := List.mem_replicate.1 h
  rfl

theorem digitsOf_ne_nil (n : Nat) : digitsOf n ≠ [] := by
  simp [digitsOf, Text.ofChars]

theorem decimalValue_append_zeros (t : Text) (k : Nat) :
    decimalValue (t ++ zeros k) = decimalValue t * 10 ^ k := by
  induction k with
  | zero => simp [zeros]
  | succ k ih =>
    rw [zeros, List.replicate_succ', ← zeros, ← List.append_assoc, decimalValue, List.foldl_append,
      ← decimalValue, ih, Nat.pow_succ, ← Nat.mul_assoc]
    rfl

theorem decimalValue_zeros_append (k : Nat) (t : Text) :
    decimalValue (zeros k ++ t) = decimalValue t := by
  have hzeros := decimalValue_append_zeros [] k
  rw [List.nil_append] at hzeros
  rw [decimalValue, List.foldl_append, ← decimalValue, hzeros, decimalValue]
  simp [decimalValue]

/-- A number has at most as many digits as a text that writes it. -/
theorem decimalValue_lt (t : Text) : decimalValue t < 10 ^ t.length := by
  have hfold (t : Text) (n : Nat) :
      t.foldl (fun n c => n * 10 + (digitValue? c).getD 0) n < (n + 1) * 10 ^ t.length := by
    induction t generalizing n with
    | nil => simp
    | cons c t ih =>
      have hdigit : (digitValue? c).getD 0 < 10 := by
        cases hd : digitValue? c with
        | none => decide
        | some d => exact digitValue?_lt hd
      refine Nat.lt_of_lt_of_le (ih _) ?_
      rw [List.length_cons, Nat.pow_succ, Nat.mul_comm (10 ^ t.length), ← Nat.mul_assoc]
      have : n * 10 + (digitValue? c).getD 0 + 1 ≤ (n + 1) * 10 := by omega
      exact Nat.mul_le_mul_right _ this
  have := hfold t 0
  rwa [Nat.zero_add, Nat.one_mul] at this

/-- What may stand behind the fraction of a written number, and the power of ten that it means:
nothing, or a letter with a sign and digits. -/
inductive IsExponent : Text → Int → Prop
  | none : IsExponent [] 0
  | plus {digits : Text} (hne : digits ≠ []) (hdigits : ∀ c ∈ digits, c.isDigit = true) :
      IsExponent ('e' :: '+' :: digits) (decimalValue digits)
  | minus {digits : Text} (hne : digits ≠ []) (hdigits : ∀ c ∈ digits, c.isDigit = true) :
      IsExponent ('e' :: '-' :: digits) (-decimalValue digits)

/-- There is no point in a row of digits. -/
theorem point_notMem_of_isDigit {t : Text} (h : ∀ c ∈ t, c.isDigit = true) :
    ↑ '.' ∉ t :=
  fun hmem => absurd (h _ hmem) (by decide)

theorem IsExponent.point_notMem {t : Text} {power : Int} (h : IsExponent t power) :
    ↑ '.' ∉ t := by
  cases h with
  | none => nofun
  | plus _ hdigits | minus _ hdigits => simp [point_notMem_of_isDigit hdigits]

/-- The digits of a fraction end where an exponent begins. -/
theorem IsExponent.head?_append {t s : Text} {power : Int} (h : IsExponent t power)
    (hs : ∀ c ∈ s.head?, isDecimal c = false) : ∀ c ∈ (t ++ s).head?, isDecimal c = false := by
  have hletter : isDecimal 'e' = false := by decide
  cases h with
  | none => exact hs
  | plus | minus => simpa using hletter

/-- An exponent of any width is one. -/
theorem isExponent_decimalDigits (width : Nat) (power : Int) :
    IsExponent ('e' :: (if power < 0 then '-' else '+') :: decimalDigits width power.natAbs)
      power := by
  have hne : decimalDigits width power.natAbs ≠ [] := by
    simp [decimalDigits, digitsOf_ne_nil]
  have hdigits : ∀ c ∈ decimalDigits width power.natAbs, c.isDigit = true := by
    rw [decimalDigits, List.forall_mem_append]
    exact ⟨fun _ => isDigit_of_mem_zeros, fun _ => isDigit_of_mem_digitsOf⟩
  have hvalue : decimalValue (decimalDigits width power.natAbs) = power.natAbs := by
    rw [decimalDigits, decimalValue_zeros_append, decimalValue_digitsOf]
  split
  next hneg =>
    have hminus := IsExponent.minus hne hdigits
    rwa [hvalue, Int.ofNat_natAbs_of_nonpos (Int.le_of_lt hneg), Int.neg_neg] at hminus
  next hneg =>
    have hplus := IsExponent.plus hne hdigits
    rwa [hvalue, Int.natAbs_of_nonneg (Int.not_lt.1 hneg)] at hplus

end Splice
