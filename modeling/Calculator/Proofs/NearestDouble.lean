import Calculator.Decimal.Basic
import Calculator.Proofs.DecimalGrid

/-!
# The nearest double

A rational number is rounded to the nearest double, and to the even one if two are equally
near.  On the scale of patterns this is a statement about two neighbours: the number lies in
the cell between them, and is rounded to the nearer end.  The scale goes on beyond the finite
doubles, so overflow needs no rule of its own.  A number is rounded to infinity if the
patterns from there on are nearer than the last finite one.

The main statement is `Decimal.roundsTo_toDouble`: the double that is read for a decimal is
the nearest one.
-/

namespace Calculator
namespace Double

/-! ## Rounding on the scale of patterns -/

/-- The pattern whose units are nearest to a count, the even one of two. -/
def IsNearestPattern (count : ℚ) (pattern : Nat) : Prop :=
  ∀ other, |count - units pattern| ≤ |count - units other| ∧
    (|count - units pattern| = |count - units other| → other ≠ pattern → Even pattern)

theorem cast_units_succ (pattern : Nat) :
    (units (pattern + 1) : ℚ) = units pattern + 2 ^ shift pattern := by
  rw [units_succ]
  push_cast
  rfl

theorem cast_units_le {first second : Nat} (h : first ≤ second) :
    (units first : ℚ) ≤ units second :=
  Nat.cast_le.mpr (strictMono_units.monotone h)

theorem cast_units_lt {first second : Nat} (h : first < second) :
    (units first : ℚ) < units second :=
  Nat.cast_lt.mpr (strictMono_units h)

section Cell

variable {count : ℚ} {pattern : Nat}

theorem isNearestPattern_lower (hlower : units pattern ≤ count)
    (hle : 2 * (count - units pattern) ≤ 2 ^ shift pattern)
    (htie : 2 * (count - units pattern) = 2 ^ shift pattern → Even pattern) :
    IsNearestPattern count pattern := by
  intro other
  rw [abs_of_nonneg (sub_nonneg.mpr hlower)]
  rcases Nat.lt_or_ge pattern other with hgt | hle'
  · have hnext := cast_units_le (Nat.succ_le_of_lt hgt)
    rw [Nat.succ_eq_add_one, cast_units_succ] at hnext
    have habs := neg_le_abs (count - units other)
    constructor
    · linarith
    · intro heq _
      exact htie (by linarith)
  · have hbelow := cast_units_le hle'
    rw [abs_of_nonneg (by linarith)]
    constructor
    · linarith
    · intro heq hne
      have hlt := cast_units_lt (Nat.lt_of_le_of_ne hle' hne)
      linarith

theorem isNearestPattern_upper (hupper : count ≤ units (pattern + 1))
    (hge : 2 ^ shift pattern ≤ 2 * (count - units pattern))
    (htie : 2 * (count - units pattern) = 2 ^ shift pattern → Even (pattern + 1)) :
    IsNearestPattern count (pattern + 1) := by
  intro other
  rw [abs_sub_comm, abs_of_nonneg (sub_nonneg.mpr hupper), cast_units_succ]
  rw [cast_units_succ] at hupper
  rcases Nat.lt_or_ge pattern other with hgt | hle
  · have hnext := cast_units_le (Nat.succ_le_of_lt hgt)
    rw [Nat.succ_eq_add_one, cast_units_succ] at hnext
    rw [abs_sub_comm, abs_of_nonneg (by linarith)]
    constructor
    · linarith
    · intro heq hne
      have hlt := cast_units_lt (Nat.lt_of_le_of_ne (Nat.succ_le_of_lt hgt) (Ne.symm hne))
      rw [Nat.succ_eq_add_one, cast_units_succ] at hlt
      linarith
  · have hbelow := cast_units_le hle
    have habs := le_abs_self (count - units other)
    constructor
    · linarith
    · intro heq _
      exact htie (by linarith)

end Cell

/-! ## Rounding a quotient -/

theorem shift_of_normal {exponent fraction : Nat} (h : exponent = 0 ∨ 2 ^ 52 ≤ fraction)
    (hlt : fraction < 2 ^ 53) : shift (exponent * 2 ^ 52 + fraction) = exponent := by
  unfold shift
  omega

theorem shifted_quotient (quotient : Nat) :
    quotient / 2 ^ (quotient.log2 - 52) < 2 ^ 53 ∧
      (quotient.log2 - 52 = 0 ∨ 2 ^ 52 ≤ quotient / 2 ^ (quotient.log2 - 52)) := by
  have hpos : 0 < 2 ^ (quotient.log2 - 52) := Nat.two_pow_pos _
  constructor
  · rw [Nat.div_lt_iff_lt_mul hpos, ← Nat.pow_add]
    apply Nat.lt_of_lt_of_le (Nat.lt_log2_self (n := quotient))
    exact Nat.pow_le_pow_right (by decide) (by omega)
  · rcases Nat.lt_or_ge 52 quotient.log2 with hlarge | hsmall
    · right
      rw [Nat.le_div_iff_mul_le hpos, ← Nat.pow_add, Nat.add_sub_cancel' hlarge.le]
      apply Nat.log2_self_le
      rintro rfl
      exact absurd hlarge (by decide)
    · left
      exact Nat.sub_eq_zero_of_le hsmall

theorem isNearestPattern_roundEven {num den exponent : Nat} (hden : 0 < den)
    (hlt : num / (den * 2 ^ exponent) < 2 ^ 53)
    (hnormal : exponent = 0 ∨ 2 ^ 52 ≤ num / (den * 2 ^ exponent)) :
    IsNearestPattern (num / den) (exponent * 2 ^ 52 + roundEven num (den * 2 ^ exponent)) := by
  have hshift := shift_of_normal hnormal hlt
  have hunits := units_of_shift hnormal hlt.le
  have heven : ∀ k, Even k → Even (exponent * 2 ^ 52 + k) := by
    intro k hk
    exact ((by decide : Even (2 ^ 52)).mul_left exponent).add hk
  have hden' : (0 : ℚ) < den := Nat.cast_pos.mpr hden
  have hsplit := Nat.div_add_mod num (den * 2 ^ exponent)
  have hrest := Nat.mod_lt num (Nat.mul_pos hden (Nat.two_pow_pos exponent))
  have hcases := roundEven_cases num (den * 2 ^ exponent)
  generalize num / (den * 2 ^ exponent) = quotient at hsplit hlt hnormal hshift hunits hcases
  generalize num % (den * 2 ^ exponent) = rest at hsplit hrest hcases
  -- the rest is the way from the lower end of the cell, in parts of the denominator
  have hcell : (num / den : ℚ) - units (exponent * 2 ^ 52 + quotient) = rest / den := by
    rw [hunits, ← hsplit]
    push_cast
    field_simp
    ring
  have htwice : 2 * ((num / den : ℚ) - units (exponent * 2 ^ 52 + quotient)) =
      ((2 * rest : ℕ) : ℚ) / den := by
    rw [hcell]
    push_cast
    ring
  have hwidth : (2 : ℚ) ^ shift (exponent * 2 ^ 52 + quotient) =
      ((den * 2 ^ exponent : ℕ) : ℚ) / den := by
    rw [hshift]
    push_cast
    field_simp
  rcases hcases with ⟨hround, hle, htie⟩ | ⟨hround, hle, htie⟩
  · rw [hround]
    apply isNearestPattern_lower
    · rw [← sub_nonneg, hcell]
      positivity
    · rw [htwice, hwidth]
      gcongr
    · rw [htwice, hwidth, div_left_inj' hden'.ne', Nat.cast_inj]
      intro heq
      exact heven _ (htie heq)
  · rw [hround, ← Nat.add_assoc]
    apply isNearestPattern_upper
    · rw [cast_units_succ, hwidth, ← sub_le_iff_le_add', hcell]
      gcongr
    · rw [htwice, hwidth]
      gcongr
    · rw [htwice, hwidth, div_left_inj' hden'.ne', Nat.cast_inj]
      intro heq
      rw [Nat.add_assoc]
      exact heven _ (htie heq)

theorem exists_isNearestPattern_nearest (num : Nat) {den : Nat} (hden : 0 < den) :
    ∃ pattern, IsNearestPattern (num / den * unitsPerOne) pattern ∧
      nearest num den = min infinity pattern := by
  unfold nearest
  generalize unitsPerOne = one
  dsimp only
  rcases shifted_quotient (num * one / den) with ⟨hlt, hnormal⟩
  generalize (num * one / den).log2 - 52 = exponent at hlt hnormal
  rw [Nat.div_div_eq_div_mul] at hlt hnormal
  have h := isNearestPattern_roundEven hden hlt hnormal
  have hcount : ((num * one : ℕ) : ℚ) / den = num / den * one := by
    push_cast
    ring
  rw [hcount] at h
  simp only [Nat.pow_eq]
  exact ⟨_, h, rfl⟩

/-! ## Overflow -/

/-- Half way between the greatest finite double and `2 ^ 1024`. -/
def overflowThreshold : ℚ :=
  2 ^ 1024 - 2 ^ 970

theorem two_mul_overflowThreshold :
    2 * (overflowThreshold * unitsPerOne) = units (infinity - 1) + units infinity := by
  have h : 2 * (2 ^ 1024 * unitsPerOne) =
      units (infinity - 1) + units infinity + 2 * (2 ^ 970 * unitsPerOne) := by decide +kernel
  have hcast := congrArg (Nat.cast (R := ℚ)) h
  simp only [Nat.cast_add, Nat.cast_mul, Nat.cast_pow, Nat.cast_ofNat] at hcast
  rw [overflowThreshold, sub_mul, mul_sub, hcast, add_sub_cancel_right]

theorem IsNearestPattern.lt_infinity_iff {count : ℚ} {pattern : Nat}
    (h : IsNearestPattern count pattern) :
    pattern < infinity ↔ count < overflowThreshold * unitsPerOne := by
  have hmiddle := two_mul_overflowThreshold
  have hodd : ¬ Even (infinity - 1) := by decide +kernel
  have hgap : (units (infinity - 1) : ℚ) < units infinity := cast_units_lt (by decide)
  constructor
  · intro hlt
    by_contra hge
    rcases h infinity with ⟨hle, htie⟩
    have hbelow : (units pattern : ℚ) ≤ units (infinity - 1) :=
      cast_units_le (Nat.le_sub_one_of_lt hlt)
    rw [abs_of_nonneg (by linarith)] at hle htie
    rcases abs_cases (count - units infinity) with ⟨habs, _⟩ | ⟨habs, _⟩
    · rw [habs] at hle
      linarith
    · rw [habs] at hle htie
      have hlast : (units pattern : ℚ) = units (infinity - 1) := by linarith
      have heven := htie (by linarith) hlt.ne'
      rw [Nat.cast_inj, strictMono_units.injective.eq_iff] at hlast
      rw [hlast] at heven
      exact hodd heven
  · intro hlt
    by_contra hge
    have habove : (units infinity : ℚ) ≤ units pattern := cast_units_le (Nat.not_lt.mp hge)
    have hle := (h (infinity - 1)).1
    rw [abs_sub_comm, abs_of_nonneg (by linarith)] at hle
    rcases abs_cases (count - units (infinity - 1)) with ⟨habs, _⟩ | ⟨habs, _⟩
    · linarith
    · linarith

/-! ## Underflow -/

theorem IsNearestPattern.eq_zero {count : ℚ} {pattern : Nat} (h : IsNearestPattern count pattern)
    (hnonneg : 0 ≤ count) (hsmall : 2 * count < 1) : pattern = 0 := by
  by_contra hne
  have hone : ((units 1 : ℕ) : ℚ) ≤ units pattern := cast_units_le (Nat.pos_of_ne_zero hne)
  have hunits : units 1 = 1 := rfl
  rw [hunits, Nat.cast_one] at hone
  have hle := (h 0).1
  rw [units_zero, Nat.cast_zero, sub_zero, abs_of_nonneg hnonneg, abs_sub_comm,
    abs_of_nonneg (by linarith)] at hle
  linarith

/-! ## Rounding a rational number -/

/--
The double that a rational number is rounded to: infinity from the threshold on, and
otherwise the nearest finite double, whose last bit is zero if another one is equally near.
-/
structure RoundsTo (q : ℚ) (w : Float) : Prop where
  not_nan : isNaN w = false
  sign : isNegative w = decide (q < 0)
  finite_iff : isFinite w = true ↔ |q| < overflowThreshold
  nearest : isFinite w = true → ∀ x, isFinite x = true → |value w - q| ≤ |value x - q|
  even_of_tie : isFinite w = true → ∀ x, isFinite x = true →
    |value w - q| = |value x - q| → value x ≠ value w → Even (magnitude w)

theorem IsNearestPattern.abs_sub_size_le {v : ℚ} {pattern : Nat}
    (h : IsNearestPattern (v * unitsPerOne) pattern) (other : Nat) :
    |v - size pattern| ≤ |v - size other| ∧
      (|v - size pattern| = |v - size other| → other ≠ pattern → Even pattern) := by
  have hscale (p : Nat) : |v - size p| = |v * unitsPerOne - units p| / unitsPerOne := by
    rw [size, ← abs_of_pos unitsPerOne_cast_pos, ← abs_div, abs_of_pos unitsPerOne_cast_pos,
      sub_div, mul_div_cancel_right₀ _ unitsPerOne_cast_pos.ne']
  rw [hscale, hscale, div_left_inj' unitsPerOne_cast_pos.ne',
    div_le_div_iff_of_pos_right unitsPerOne_cast_pos]
  exact h other

theorem abs_value_sub_of_sign {q : ℚ} {x : Float} (hsign : isNegative x = decide (q < 0)) :
    |value x - q| = abs (|q| - size (magnitude x)) := by
  by_cases hneg : q < 0
  · have hsign' : isNegative x = true := hsign.trans (decide_eq_true hneg)
    rw [value, if_pos hsign', abs_of_neg hneg, ← neg_add', abs_neg, ← neg_add', abs_neg, add_comm]
  · have hsign' : isNegative x = false := hsign.trans (decide_eq_false hneg)
    rw [value, hsign', if_neg Bool.false_ne_true, abs_of_nonneg (not_lt.mp hneg), abs_sub_comm]

theorem abs_sub_size_le_abs_value_sub (q : ℚ) (x : Float) :
    abs (|q| - size (magnitude x)) ≤ |value x - q| := by
  rw [← abs_value, abs_sub_comm (value x)]
  exact abs_abs_sub_abs_le q (value x)

theorem roundsTo_ofMagnitude {q : ℚ} {pattern : Nat}
    (h : IsNearestPattern (|q| * unitsPerOne) pattern) :
    RoundsTo q (ofMagnitude (decide (q < 0)) (min infinity pattern)) := by
  have hbound : min infinity pattern ≤ infinity := Nat.min_le_left _ _
  have hmagnitude := magnitude_ofMagnitude hbound (decide (q < 0))
  have hsign := isNegative_ofMagnitude hbound (decide (q < 0))
  generalize ofMagnitude (decide (q < 0)) (min infinity pattern) = w at hmagnitude hsign
  have hfinite : isFinite w = true ↔ pattern < infinity := by
    rw [isFinite, hmagnitude, decide_eq_true_iff]
    omega
  have hpattern (hw : isFinite w = true) : magnitude w = pattern := by
    rw [hmagnitude]
    exact Nat.min_eq_right (hfinite.mp hw).le
  constructor
  · rw [isNaN, hmagnitude]
    exact decide_eq_false hbound.not_gt
  · exact hsign
  · rw [hfinite, h.lt_infinity_iff, mul_lt_mul_iff_of_pos_right unitsPerOne_cast_pos]
  · intro hw x hx
    rw [abs_value_sub_of_sign hsign, hpattern hw]
    exact (h.abs_sub_size_le (magnitude x)).1.trans (abs_sub_size_le_abs_value_sub q x)
  · intro hw x hx heq hne
    have hle := abs_sub_size_le_abs_value_sub q x
    rw [← heq, abs_value_sub_of_sign hsign] at hle
    rw [hpattern hw] at hle ⊢
    rcases h.abs_sub_size_le (magnitude x) with ⟨hnearest, htie⟩
    apply htie (le_antisymm hnearest hle)
    -- two doubles of one magnitude are equally near to zero only
    intro hsame
    have hvalues : |value x| = |value w| := by
      rw [abs_value, abs_value, hsame, hpattern hw]
    have hopposite : value x = -value w := (abs_eq_abs.mp hvalues).resolve_left hne
    have hzero : q = 0 := by
      rcases abs_eq_abs.mp heq with hsum | hsum
      · exact absurd (by linarith) hne
      · linarith
    have hsmall := (h.abs_sub_size_le 0).1
    rw [size_zero, hzero, abs_zero, zero_sub, abs_neg, sub_zero, abs_zero, ← hpattern hw,
      ← abs_value, abs_abs] at hsmall
    have hw0 : value w = 0 := abs_eq_zero.mp (le_antisymm hsmall (abs_nonneg _))
    rw [hw0, neg_zero] at hopposite
    rw [hopposite, hw0] at hne
    exact hne rfl

end Double

namespace Decimal

open Double

theorem toRat_nonneg (d : Decimal) : 0 ≤ d.toRat := by
  unfold toRat
  positivity

theorem ratio_eq_toRat (d : Decimal) : (d.ratio.1 : ℚ) / d.ratio.2 = d.toRat := by
  rw [ratio, ratio_shiftTen, toRat, Nat.cast_one, div_one]

theorem overflowThreshold_le_toRat {d : Decimal} (hcoefficient : d.coefficient ≠ 0)
    (hexponent : 309 ≤ d.exponent) : overflowThreshold ≤ d.toRat := by
  have hpow : 2 ^ 1024 ≤ 10 ^ 309 := by decide +kernel
  have hcast := Nat.cast_le (α := ℚ).mpr hpow
  simp only [Nat.cast_pow, Nat.cast_ofNat] at hcast
  have hone : (1 : ℚ) ≤ d.coefficient := Nat.one_le_cast.mpr (Nat.pos_of_ne_zero hcoefficient)
  calc overflowThreshold ≤ 2 ^ 1024 := sub_le_self _ (by positivity)
    _ ≤ (10 : ℚ) ^ 309 := hcast
    _ = (10 : ℚ) ^ (309 : ℤ) := (zpow_natCast 10 309).symm
    _ ≤ (10 : ℚ) ^ d.exponent := zpow_le_zpow_right₀ (by norm_num) hexponent
    _ ≤ d.toRat := le_mul_of_one_le_left (by positivity) hone

theorem toRat_mul_unitsPerOne_lt {d : Decimal}
    (hexponent : d.exponent + d.coefficient.log2 + 1 ≤ -324) :
    2 * (d.toRat * unitsPerOne) < 1 := by
  have hlog : d.coefficient < 2 ^ (d.coefficient.log2 + 1) := Nat.lt_log2_self
  have hpow : 2 ^ (d.coefficient.log2 + 1) ≤ 10 ^ (d.coefficient.log2 + 1) :=
    Nat.pow_le_pow_left (by decide) _
  have hcoefficient : (d.coefficient : ℚ) < 10 ^ (d.coefficient.log2 + 1) := by
    exact_mod_cast Nat.lt_of_lt_of_le hlog hpow
  have hunits : 2 * unitsPerOne ≤ 10 ^ 324 := by decide +kernel
  have hdouble : 2 * (unitsPerOne : ℚ) ≤ (10 : ℚ) ^ (324 : ℤ) := by
    have hcast := Nat.cast_le (α := ℚ).mpr hunits
    simp only [Nat.cast_mul, Nat.cast_pow, Nat.cast_ofNat] at hcast
    rw [show (10 : ℚ) ^ (324 : ℤ) = 10 ^ 324 from zpow_natCast 10 324]
    exact hcast
  have hsmall : d.toRat < (10 : ℚ) ^ (-324 : ℤ) := by
    calc d.toRat < 10 ^ (d.coefficient.log2 + 1) * (10 : ℚ) ^ d.exponent :=
          mul_lt_mul_of_pos_right hcoefficient (by positivity)
      _ = (10 : ℚ) ^ (((d.coefficient.log2 + 1 : ℕ) : ℤ) + d.exponent) := by
          rw [zpow_add₀ (by norm_num), zpow_natCast]
      _ ≤ (10 : ℚ) ^ (-324 : ℤ) := zpow_le_zpow_right₀ (by norm_num) (by omega)
  rw [zpow_neg, ← one_div, lt_div_iff₀ (by positivity)] at hsmall
  calc 2 * (d.toRat * unitsPerOne) = d.toRat * (2 * unitsPerOne) := mul_left_comm _ _ _
    _ ≤ d.toRat * (10 : ℚ) ^ (324 : ℤ) := mul_le_mul_of_nonneg_left hdouble d.toRat_nonneg
    _ < 1 := hsmall

/-- The powers of ten that are not formed would be rounded to infinity or to zero. -/
theorem exists_isNearestPattern_pattern (d : Decimal) :
    ∃ p, IsNearestPattern (d.toRat * unitsPerOne) p ∧ d.pattern = min infinity p := by
  have hden : 0 < d.ratio.2 := den_shiftTen_pos d.coefficient Nat.one_pos d.exponent
  rcases exists_isNearestPattern_nearest d.ratio.1 hden with ⟨p, h, hnearest⟩
  rw [ratio_eq_toRat] at h
  refine ⟨p, h, ?_⟩
  have hnonneg : 0 ≤ d.toRat * unitsPerOne :=
    mul_nonneg d.toRat_nonneg unitsPerOne_cast_pos.le
  unfold pattern
  split
  · rename_i hzero
    have hcount : d.toRat * unitsPerOne = 0 := by
      rw [toRat, hzero, Nat.cast_zero, zero_mul, zero_mul]
    rw [h.eq_zero hnonneg (by rw [hcount, mul_zero]; exact one_pos), Nat.min_zero]
  · rename_i hcoefficient
    split
    · rename_i hlarge
      have hthreshold := overflowThreshold_le_toRat hcoefficient hlarge
      have hinfinity : infinity ≤ p := by
        rw [← Nat.not_lt, h.lt_infinity_iff,
          mul_lt_mul_iff_of_pos_right unitsPerOne_cast_pos, not_lt]
        exact hthreshold
      exact (Nat.min_eq_left hinfinity).symm
    · split
      · rename_i hsmall
        rw [h.eq_zero hnonneg (toRat_mul_unitsPerOne_lt hsmall), Nat.min_zero]
      · exact hnearest

theorem roundsTo_toDouble (d : Decimal) : RoundsTo d.toRat d.toDouble := by
  rcases exists_isNearestPattern_pattern d with ⟨p, h, hpattern⟩
  have hsign : decide (d.toRat < 0) = false := decide_eq_false d.toRat_nonneg.not_gt
  rw [← abs_of_nonneg d.toRat_nonneg] at h
  have hrounds := roundsTo_ofMagnitude h
  rw [hsign, ← hpattern] at hrounds
  exact hrounds

theorem roundsTo_neg_toDouble {d : Decimal} (hpos : 0 < d.toRat) :
    RoundsTo (-d.toRat) (-d.toDouble) := by
  rcases exists_isNearestPattern_pattern d with ⟨p, h, hpattern⟩
  have hsign : decide (-d.toRat < 0) = true := decide_eq_true (neg_neg_of_pos hpos)
  rw [← abs_of_pos hpos, ← abs_neg] at h
  have hrounds := roundsTo_ofMagnitude h
  have hbound : d.pattern ≤ infinity := by
    rw [hpattern]
    exact Nat.min_le_left _ _
  have hmagnitude := magnitude_ofMagnitude hbound false
  have hneg : -d.toDouble = ofMagnitude true d.pattern := by
    rw [toDouble, neg_eq_ofMagnitude (by rw [hmagnitude]; exact hbound), hmagnitude,
      isNegative_ofMagnitude hbound]
    rfl
  rw [hsign, ← hpattern, ← hneg] at hrounds
  exact hrounds

end Decimal
end Calculator
