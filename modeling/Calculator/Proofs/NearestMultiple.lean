import Calculator.Double.Nearest
import Mathlib

/-!
# Rounding to a grid

A number is rounded to the nearest multiple of a unit, and to the even multiple if two are
equally near.  The rule keeps the order of numbers.  Quotients of
natural numbers are rounded by it.

The main statements are `IsNearestMultiple.mono` and `Double.isNearestMultiple_roundEven`.
-/

namespace Calculator

/-- The multiple of a unit that is nearest to a number, the even one of two. -/
def IsNearestMultiple (unit v r : ℚ) : Prop :=
  ∃ k : ℤ, r = k * unit ∧ 2 * |v - r| ≤ unit ∧ (2 * |v - r| = unit → Even k)

namespace IsNearestMultiple

variable {unit v w r s : ℚ}

theorem of_multiple (hunit : 0 < unit) (k : ℤ) : IsNearestMultiple unit (k * unit) (k * unit) := by
  refine ⟨k, rfl, ?_, ?_⟩
  · rw [sub_self, abs_zero, mul_zero]
    exact hunit.le
  · intro htie
    rw [sub_self, abs_zero, mul_zero] at htie
    exact absurd htie hunit.ne

theorem mono (hv : IsNearestMultiple unit v r) (hw : IsNearestMultiple unit w s) (hvw : v ≤ w) :
    r ≤ s := by
  rcases hv with ⟨k, rfl, hk, hkeven⟩
  rcases hw with ⟨l, rfl, hl, hleven⟩
  have hunit : 0 ≤ unit := le_trans (by positivity) hk
  have hk' : k * unit ≤ v + unit / 2 := by
    have := neg_le_abs (v - k * unit)
    linarith
  have hl' : w - unit / 2 ≤ l * unit := by
    have := le_abs_self (w - l * unit)
    linarith
  by_contra hlt
  rw [not_le] at hlt
  have hpos : 0 < unit := by
    rcases hunit.lt_or_eq with hpos | hzero
    · exact hpos
    · rw [← hzero, mul_zero, mul_zero] at hlt
      exact absurd hlt (lt_irrefl 0)
  have hlk : l + 1 ≤ k := by
    have : (l : ℚ) < k := lt_of_mul_lt_mul_right hlt hpos.le
    exact_mod_cast this
  have hstep : ((l : ℚ) + 1) * unit ≤ k * unit := by
    apply mul_le_mul_of_nonneg_right _ hpos.le
    exact_mod_cast hlk
  -- both are exactly a half away, so both multiples are even
  have hvk : v - k * unit = -(unit / 2) := by linarith
  have hwl : w - l * unit = unit / 2 := by linarith
  have hkl : (k : ℚ) * unit = (l + 1) * unit := by linarith
  have hk1 : k = l + 1 := by
    have := mul_right_cancel₀ hpos.ne' hkl
    exact_mod_cast this
  have hke : Even k := by
    apply hkeven
    rw [hvk, abs_neg, abs_of_pos (half_pos hpos)]
    ring
  have hle : Even l := by
    apply hleven
    rw [hwl, abs_of_pos (half_pos hpos)]
    ring
  rw [hk1] at hke
  exact (Int.even_add_one.mp hke) hle

/-- A multiple below a number is not passed when the number is rounded. -/
theorem multiple_le (hunit : 0 < unit) (h : IsNearestMultiple unit v r) {k : ℤ}
    (hk : k * unit ≤ v) : k * unit ≤ r :=
  (of_multiple hunit k).mono h hk

theorem le_multiple (hunit : 0 < unit) (h : IsNearestMultiple unit v r) {k : ℤ}
    (hk : v ≤ k * unit) : r ≤ k * unit :=
  h.mono (of_multiple hunit k) hk

theorem neg (h : IsNearestMultiple unit v r) : IsNearestMultiple unit (-v) (-r) := by
  rcases h with ⟨k, rfl, hk, heven⟩
  have habs : |-v - -(k * unit)| = |v - k * unit| := by
    rw [← abs_neg]
    congr 1
    ring
  refine ⟨-k, ?_, ?_, ?_⟩
  · push_cast
    ring
  · rw [habs]
    exact hk
  · rw [habs]
    intro htie
    exact (heven htie).neg

theorem scale (hunit : 0 < unit) (h : IsNearestMultiple 1 v r) :
    IsNearestMultiple unit (v * unit) (r * unit) := by
  rcases h with ⟨k, rfl, hk, heven⟩
  have habs : 2 * |v * unit - k * 1 * unit| = 2 * |v - k * 1| * unit := by
    rw [← sub_mul, abs_mul, abs_of_pos hunit, mul_assoc]
  refine ⟨k, ?_, ?_, ?_⟩
  · rw [mul_one]
  · rw [habs]
    exact (mul_le_iff_le_one_left hunit).mpr hk
  · rw [habs]
    intro htie
    exact heven ((mul_eq_right₀ hunit.ne').mp htie)

end IsNearestMultiple

namespace Double

theorem roundEven_cases (num den : Nat) :
    (roundEven num den = num / den ∧ 2 * (num % den) ≤ den ∧
      (2 * (num % den) = den → Even (num / den))) ∨
    (roundEven num den = num / den + 1 ∧ den ≤ 2 * (num % den) ∧
      (2 * (num % den) = den → Even (num / den + 1))) := by
  unfold roundEven
  dsimp only
  split
  · rename_i hlt
    left
    exact ⟨rfl, hlt.le, fun htie => absurd htie hlt.ne⟩
  · rename_i hge
    split
    · rename_i hgt
      right
      exact ⟨rfl, hgt.le, fun htie => absurd htie hgt.ne'⟩
    · rename_i hle
      rcases Nat.mod_two_eq_zero_or_one (num / den) with heven | hodd
      · left
        rw [heven, Nat.add_zero]
        exact ⟨rfl, by omega, fun _ => Nat.even_iff.mpr heven⟩
      · right
        rw [hodd]
        exact ⟨rfl, by omega, fun _ => Nat.even_iff.mpr (by omega)⟩

theorem isNearestMultiple_roundEven (num : Nat) {den : Nat} (hden : 0 < den) :
    IsNearestMultiple 1 (num / den) (roundEven num den) := by
  have hden' : (0 : ℚ) < den := Nat.cast_pos.mpr hden
  have hsplit : ((den * (num / den) + num % den : ℕ) : ℚ) = num := by
    rw [Nat.div_add_mod]
  have hrest : (num / den : ℚ) - (num / den : ℕ) = (num % den : ℕ) / den := by
    rw [← hsplit]
    push_cast
    field_simp
    ring
  have hlt : ((num % den : ℕ) : ℚ) / den < 1 := by
    rw [div_lt_one hden']
    exact_mod_cast Nat.mod_lt num hden
  have hnonneg : 0 ≤ ((num % den : ℕ) : ℚ) / den := by positivity
  have htwice : 2 * (((num % den : ℕ) : ℚ) / den) = ((2 * (num % den) : ℕ) : ℚ) / den := by
    push_cast
    ring
  refine ⟨roundEven num den, ?_, ?_⟩
  · push_cast
    ring
  · rcases roundEven_cases num den with ⟨heq, hle, heven⟩ | ⟨heq, hle, heven⟩
    · have habs : |(num / den : ℚ) - (roundEven num den : ℕ)| = (num % den : ℕ) / den := by
        rw [heq, hrest, abs_of_nonneg hnonneg]
      rw [habs, htwice, heq]
      constructor
      · rw [div_le_one hden']
        exact_mod_cast hle
      · intro htie
        rw [div_eq_one_iff_eq hden'.ne'] at htie
        have := heven (by exact_mod_cast htie)
        exact_mod_cast this
    · have hdist : (num / den : ℚ) - (roundEven num den : ℕ) =
          -(1 - ((num % den : ℕ) : ℚ) / den) := by
        rw [heq, Nat.cast_succ]
        linarith
      have habs : |(num / den : ℚ) - (roundEven num den : ℕ)| = 1 - (num % den : ℕ) / den := by
        rw [hdist, abs_neg, abs_of_nonneg (sub_nonneg.mpr hlt.le)]
      rw [habs, mul_sub, htwice, heq]
      constructor
      · have hone : 1 ≤ ((2 * (num % den) : ℕ) : ℚ) / den := by
          rw [one_le_div hden']
          exact_mod_cast hle
        linarith
      · intro htie
        have hone : ((2 * (num % den) : ℕ) : ℚ) / den = 1 := by linarith
        rw [div_eq_one_iff_eq hden'.ne'] at hone
        have := heven (by exact_mod_cast hone)
        exact_mod_cast this

end Double
end Calculator
