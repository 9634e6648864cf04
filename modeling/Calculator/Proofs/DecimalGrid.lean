import Calculator.Decimal.Rounded
import Calculator.Proofs.ExactValue
import Calculator.Proofs.DigitRuns
import Calculator.Proofs.NearestMultiple
import Calculator.Proofs.Denotation

/-!
# Magnitudes on the decimal grid

The decimal with a given number of places, or of digits, is the exact value of a magnitude
rounded to the nearest multiple of a power of ten.  For a number of digits that power follows
from the decade of the value, also where rounding up leaves the decade.

The main statements are `Decimal.isNearestMultiple_toPlaces` and
`Decimal.exists_isSignificant`.
-/

namespace Calculator

/-! ## Powers of ten on the grid of a lower one -/

namespace IsNearestMultiple

variable {v r : ℚ} {k e : ℤ}

theorem exists_multiple_eq_zpow (hk : k ≤ e) : ∃ m : ℤ, m * (10 : ℚ) ^ k = (10 : ℚ) ^ e := by
  rcases Int.le.dest hk with ⟨n, rfl⟩
  refine ⟨10 ^ n, ?_⟩
  rw [zpow_add₀ (by norm_num), zpow_natCast, mul_comm]
  push_cast
  rfl

theorem zpow_le (hk : k ≤ e) (h : IsNearestMultiple ((10 : ℚ) ^ k) v r) (hv : (10 : ℚ) ^ e ≤ v) :
    (10 : ℚ) ^ e ≤ r := by
  rcases exists_multiple_eq_zpow hk with ⟨m, hm⟩
  rw [← hm] at hv ⊢
  exact h.multiple_le (by positivity) hv

theorem le_zpow (hk : k ≤ e) (h : IsNearestMultiple ((10 : ℚ) ^ k) v r) (hv : v ≤ (10 : ℚ) ^ e) :
    r ≤ (10 : ℚ) ^ e := by
  rcases exists_multiple_eq_zpow hk with ⟨m, hm⟩
  rw [← hm] at hv ⊢
  exact h.le_multiple (by positivity) hv

end IsNearestMultiple

namespace Decimal

/-! ## Shifting by powers of ten -/

theorem den_shiftTen_pos (num : Nat) {den : Nat} (hden : 0 < den) (places : ℤ) :
    0 < (shiftTen num den places).2 := by
  cases places with
  | ofNat places => exact hden
  | negSucc places => exact Nat.mul_pos hden (Nat.pow_pos (by decide))

theorem ratio_shiftTen (num den : Nat) (places : ℤ) :
    ((shiftTen num den places).1 : ℚ) / (shiftTen num den places).2 =
      num / den * (10 : ℚ) ^ places := by
  cases places with
  | ofNat places =>
      simp only [shiftTen, Nat.pow_eq, Int.ofNat_eq_natCast, zpow_natCast]
      push_cast
      ring
  | negSucc places =>
      simp only [shiftTen, Nat.pow_eq, zpow_negSucc]
      push_cast
      rw [div_mul_eq_div_div, div_eq_mul_inv _ ((10 : ℚ) ^ (places + 1))]

/-! ## The place of the first digit -/

theorem placesBelowOne_spec {num den : Nat} (hnum : 0 < num) (hlt : num < den) :
    den ≤ num * 10 ^ placesBelowOne num den ∧ num * 10 ^ placesBelowOne num den < 10 * den := by
  fun_induction placesBelowOne num den with
  | case1 num h => omega
  | case2 num h ih =>
      rw [Nat.pow_succ]
      by_cases hnext : num * 10 < den
      · have hstep := ih (by omega) hnext
        rw [Nat.mul_assoc, Nat.mul_comm 10] at hstep
        exact hstep
      · have hzero : placesBelowOne (num * 10) den = 0 := by
          rw [placesBelowOne, if_pos (Or.inr (Nat.not_lt.mp hnext))]
        rw [hzero]
        omega

theorem leadingExponent_spec {num den : Nat} (hnum : 0 < num) (hden : 0 < den) :
    (10 : ℚ) ^ leadingExponent num den ≤ num / den ∧
      (num / den : ℚ) < (10 : ℚ) ^ (leadingExponent num den + 1) := by
  have hden' : (0 : ℚ) < den := Nat.cast_pos.mpr hden
  rw [le_div_iff₀ hden', div_lt_iff₀ hden', zpow_add_one₀ (by norm_num)]
  unfold leadingExponent
  split
  · rename_i hle
    have hpos : 0 < num / den := Nat.div_pos hle hden
    have hlower := Digits.pow_length_write_le hpos
    have hupper := Digits.lt_pow_length_write (num / den)
    rcases Nat.exists_eq_add_one_of_ne_zero
      (mt List.length_eq_zero_iff.mp (Digits.write_ne_nil (num / den))) with ⟨places, hplaces⟩
    rw [hplaces, Nat.div_lt_iff_lt_mul hden, Nat.pow_succ] at hupper
    rw [hplaces, Nat.pow_succ, Nat.mul_comm, Nat.mul_le_mul_left_iff (by decide),
      Nat.le_div_iff_mul_le hden] at hlower
    rw [hplaces, Nat.cast_succ, add_sub_cancel_right, zpow_natCast]
    constructor
    · exact_mod_cast hlower
    · exact_mod_cast hupper
  · rename_i hlt
    rcases placesBelowOne_spec hnum (Nat.not_le.mp hlt) with ⟨hlower, hupper⟩
    have hpow : (0 : ℚ) < 10 ^ placesBelowOne num den := by positivity
    rw [zpow_neg, zpow_natCast]
    constructor
    · rw [inv_mul_le_iff₀ hpow, mul_comm]
      exact_mod_cast hlower
    · rw [mul_assoc, lt_inv_mul_iff₀ hpow, mul_comm]
      exact_mod_cast hupper

/-! ## A given number of places -/

theorem isNearestMultiple_roundEven_shift (num : Nat) {den : Nat} (hden : 0 < den)
    (places : Nat) :
    IsNearestMultiple ((10 : ℚ) ^ (-places : ℤ)) (num / den)
      (Double.roundEven (num * 10 ^ places) den * (10 : ℚ) ^ (-places : ℤ)) := by
  have hunit : (0 : ℚ) < (10 : ℚ) ^ (-places : ℤ) := by positivity
  have h := (Double.isNearestMultiple_roundEven (num * 10 ^ places) hden).scale hunit
  have hratio : ((num * 10 ^ places : ℕ) : ℚ) / den * (10 : ℚ) ^ (-places : ℤ) = num / den := by
    rw [zpow_neg, zpow_natCast]
    push_cast
    field_simp
  rw [hratio] at h
  exact h

theorem isNearestMultiple_toPlaces (pattern places : Nat) :
    IsNearestMultiple ((10 : ℚ) ^ (-places : ℤ)) (Double.size pattern)
      (toPlaces pattern places).toRat := by
  have h := isNearestMultiple_roundEven_shift (Double.units pattern) Double.unitsPerOne_pos places
  simp only [toPlaces, toRat, Nat.pow_eq]
  exact h

/-! ## A given number of digits -/

/-- The shifted quotient is rounded, and a power of ten that it is rounded up to is shortened. -/
theorem toSignificant_eq {pattern places num den : Nat} {leading : ℤ}
    (hleading : leadingExponent (Double.units pattern) Double.unitsPerOne = leading)
    (hshift : shiftTen (Double.units pattern) Double.unitsPerOne (places - leading) = (num, den)) :
    toSignificant pattern places =
      if Double.roundEven num den = 10 ^ (places + 1) then ⟨10 ^ places, leading - places + 1⟩
      else ⟨Double.roundEven num den, leading - places⟩ := by
  delta toSignificant
  simp only [hleading, hshift, Nat.pow_eq]

theorem toRat_carry (places : Nat) (exponent : ℤ) :
    toRat ⟨10 ^ places, exponent + 1⟩ = toRat ⟨10 ^ (places + 1), exponent⟩ := by
  rw [toRat, toRat, zpow_add_one₀ (by norm_num)]
  push_cast
  ring

/-- A decimal with a given number of places behind its first digit, nearest to a number. -/
structure IsSignificant (places : Nat) (v : ℚ) (leading : ℤ) (d : Decimal) : Prop where
  zpow_le : (10 : ℚ) ^ leading ≤ v
  lt_zpow : v < (10 : ℚ) ^ (leading + 1)
  nearest : IsNearestMultiple ((10 : ℚ) ^ (leading - places)) v d.toRat
  pow_le_coefficient : 10 ^ places ≤ d.coefficient
  coefficient_lt_pow : d.coefficient < 10 ^ (places + 1)
  /-- The exponent is greater by one if rounding leads to the next decade. -/
  exponent : d.exponent = leading - places ∨ d.exponent = leading - places + 1

theorem cast_pow_mul_zpow (n : Nat) (k : ℤ) :
    ((10 ^ n : ℕ) : ℚ) * (10 : ℚ) ^ k = (10 : ℚ) ^ (k + n) := by
  rw [zpow_add₀ (by norm_num), zpow_natCast, mul_comm]
  push_cast
  rfl

section

variable {v : ℚ} {leading : ℤ} {places coefficient : Nat}

theorem pow_le_of_isNearestMultiple (hlower : (10 : ℚ) ^ leading ≤ v)
    (h : IsNearestMultiple ((10 : ℚ) ^ (leading - places)) v
      (coefficient * (10 : ℚ) ^ (leading - places))) : 10 ^ places ≤ coefficient := by
  have hrounded := h.zpow_le (by omega) hlower
  have hsplit : (10 : ℚ) ^ leading = ((10 ^ places : ℕ) : ℚ) * (10 : ℚ) ^ (leading - places) := by
    rw [cast_pow_mul_zpow, sub_add_cancel]
  rw [hsplit] at hrounded
  exact_mod_cast le_of_mul_le_mul_right hrounded (by positivity)

theorem le_pow_of_isNearestMultiple (hupper : v < (10 : ℚ) ^ (leading + 1))
    (h : IsNearestMultiple ((10 : ℚ) ^ (leading - places)) v
      (coefficient * (10 : ℚ) ^ (leading - places))) : coefficient ≤ 10 ^ (places + 1) := by
  have hrounded := h.le_zpow (by omega) hupper.le
  have hsplit : (10 : ℚ) ^ (leading + 1) =
      ((10 ^ (places + 1) : ℕ) : ℚ) * (10 : ℚ) ^ (leading - places) := by
    rw [cast_pow_mul_zpow, Nat.cast_succ, ← add_assoc, sub_add_cancel]
  rw [hsplit] at hrounded
  exact_mod_cast le_of_mul_le_mul_right hrounded (by positivity)

theorem isNearestMultiple_of_shiftTen {num den : Nat} (hden : 0 < den)
    (hratio : (num : ℚ) / den = v * (10 : ℚ) ^ (places - leading)) :
    IsNearestMultiple ((10 : ℚ) ^ (leading - places)) v
      (Double.roundEven num den * (10 : ℚ) ^ (leading - places)) := by
  have hten : (10 : ℚ) ≠ 0 := by norm_num
  have hback : (10 : ℚ) ^ (places - leading) * (10 : ℚ) ^ (leading - places) = 1 := by
    rw [← zpow_add₀ hten, sub_add_sub_cancel, sub_self, zpow_zero]
  have hunit : 0 < (10 : ℚ) ^ (leading - places) := by positivity
  have h := (Double.isNearestMultiple_roundEven num hden).scale hunit
  rw [hratio, mul_assoc, hback, mul_one] at h
  exact h

end

theorem exists_isSignificant {pattern : Nat} (hpos : 0 < pattern) (places : Nat) :
    ∃ leading, IsSignificant places (Double.size pattern) leading
      (toSignificant pattern places) := by
  have hunits : 0 < Double.units pattern := Double.strictMono_units hpos
  rcases leadingExponent_spec hunits Double.unitsPerOne_pos with ⟨hlower, hupper⟩
  generalize hleading : leadingExponent (Double.units pattern) Double.unitsPerOne = leading
    at hlower hupper
  have hden := den_shiftTen_pos (Double.units pattern) Double.unitsPerOne_pos (places - leading)
  have hratio := ratio_shiftTen (Double.units pattern) Double.unitsPerOne (places - leading)
  generalize hshift : shiftTen (Double.units pattern) Double.unitsPerOne (places - leading) = pair
    at hden hratio
  rcases pair with ⟨num, den⟩
  have hspec := toSignificant_eq hleading hshift
  have hrounded : IsNearestMultiple _ (Double.size pattern) _ :=
    isNearestMultiple_of_shiftTen hden hratio
  have hle := pow_le_of_isNearestMultiple hlower hrounded
  have hge := le_pow_of_isNearestMultiple hupper hrounded
  generalize Double.roundEven num den = coefficient at hspec hrounded hle hge
  refine ⟨leading, ?_⟩
  by_cases hcarry : coefficient = 10 ^ (places + 1)
  · rw [hspec, if_pos hcarry]
    constructor
    · exact hlower
    · exact hupper
    · rw [toRat_carry, ← hcarry]
      exact hrounded
    · exact le_rfl
    · exact Nat.pow_lt_pow_right (by decide : 1 < 10) (Nat.lt_succ_self places)
    · exact Or.inr rfl
  · rw [hspec, if_neg hcarry]
    exact ⟨hlower, hupper, hrounded, hle, Nat.lt_of_le_of_ne hge hcarry, Or.inl rfl⟩

end Decimal
end Calculator
