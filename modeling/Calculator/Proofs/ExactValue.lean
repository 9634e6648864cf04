import Calculator.Double.Basic
import Mathlib

/-!
# Exact values of doubles

A pattern is taken apart into a shift and a significand: every step of the pattern is
worth two to the power of the shift, counted in units.  So larger patterns have more
units, and the doubles are in the order of the rational numbers that they stand for.

The standard library describes doubles by another decomposition, into a sign, a mantissa
and an exponent of two.  The two agree, which is where the negation and the order of
doubles are taken from.

The main statements are `strictMono_size`, `neg_eq_ofMagnitude` and `le_iff_value_le`.
-/

namespace Calculator
namespace Double

/-! ## Shift and significand -/

/-- The power of two that a step of the pattern is worth. -/
def shift (pattern : Nat) : Nat :=
  pattern / 2 ^ 52 - 1

def significand (pattern : Nat) : Nat :=
  pattern - shift pattern * 2 ^ 52

theorem shift_add_significand (pattern : Nat) :
    shift pattern * 2 ^ 52 + significand pattern = pattern := by
  unfold significand shift
  omega

theorem significand_lt (pattern : Nat) : significand pattern < 2 ^ 53 := by
  unfold significand shift
  omega

theorem shift_eq_zero_or_le_significand (pattern : Nat) :
    shift pattern = 0 ∨ 2 ^ 52 ≤ significand pattern := by
  unfold significand shift
  omega

theorem units_of_shift {exponent fraction : Nat} (h : exponent = 0 ∨ 2 ^ 52 ≤ fraction)
    (hle : fraction ≤ 2 ^ 53) :
    units (exponent * 2 ^ 52 + fraction) = fraction * 2 ^ exponent := by
  rcases Nat.lt_or_eq_of_le hle with hlt | rfl
  · by_cases hsmall : exponent = 0 ∧ fraction < 2 ^ 52
    · rcases hsmall with ⟨rfl, hfraction⟩
      have hdiv : (0 * 2 ^ 52 + fraction) / 2 ^ 52 = 0 := by omega
      have hmod : (0 * 2 ^ 52 + fraction) % 2 ^ 52 = fraction := by omega
      simp only [units, Nat.pow_eq, hdiv, hmod]
      simp
    · have hdiv : (exponent * 2 ^ 52 + fraction) / 2 ^ 52 = exponent + 1 := by omega
      have hmod : (exponent * 2 ^ 52 + fraction) % 2 ^ 52 = fraction - 2 ^ 52 := by omega
      have hfraction : 2 ^ 52 + (fraction - 2 ^ 52) = fraction := by omega
      simp only [units, Nat.pow_eq, hdiv, hmod, hfraction]
      simp
  · have hdiv : (exponent * 2 ^ 52 + 2 ^ 53) / 2 ^ 52 = exponent + 2 := by omega
    have hmod : (exponent * 2 ^ 52 + 2 ^ 53) % 2 ^ 52 = 0 := by omega
    have hexponent : exponent + 2 - 1 = exponent + 1 := by omega
    simp only [units, Nat.pow_eq, hdiv, hmod, hexponent]
    rw [if_neg (Nat.succ_ne_zero _), Nat.add_zero, Nat.pow_succ]
    omega

theorem units_eq (pattern : Nat) :
    units pattern = significand pattern * 2 ^ shift pattern := by
  have h := units_of_shift (shift_eq_zero_or_le_significand pattern) (significand_lt pattern).le
  rw [shift_add_significand] at h
  exact h

theorem units_succ (pattern : Nat) :
    units (pattern + 1) = units pattern + 2 ^ shift pattern := by
  have hnormal : shift pattern = 0 ∨ 2 ^ 52 ≤ significand pattern + 1 := by
    rcases shift_eq_zero_or_le_significand pattern with hzero | hle
    · exact Or.inl hzero
    · exact Or.inr (Nat.le_succ_of_le hle)
  have h := units_of_shift hnormal (significand_lt pattern)
  rw [← Nat.add_assoc, shift_add_significand] at h
  rw [h, units_eq, Nat.succ_mul]

theorem strictMono_units : StrictMono units := by
  apply strictMono_nat_of_lt_succ
  intro pattern
  rw [units_succ]
  have := Nat.two_pow_pos (shift pattern)
  omega

/-! ## Exact values -/

/-- The number that a pattern stands for. -/
def size (pattern : Nat) : ℚ :=
  units pattern / unitsPerOne

def value (x : Float) : ℚ :=
  if isNegative x then -size (magnitude x) else size (magnitude x)

theorem unitsPerOne_cast_pos : (0 : ℚ) < unitsPerOne :=
  Nat.cast_pos.mpr unitsPerOne_pos

theorem strictMono_size : StrictMono size := by
  intro first second h
  unfold size
  apply div_lt_div_of_pos_right _ unitsPerOne_cast_pos
  exact Nat.cast_lt.mpr (strictMono_units h)

theorem size_zero : size 0 = 0 := by
  rw [size, units_zero, Nat.cast_zero, zero_div]

theorem size_nonneg (pattern : Nat) : 0 ≤ size pattern := by
  rw [← size_zero]
  exact strictMono_size.monotone (Nat.zero_le pattern)

theorem size_pos {pattern : Nat} (h : 0 < pattern) : 0 < size pattern := by
  rw [← size_zero]
  exact strictMono_size h

theorem abs_value (x : Float) : |value x| = size (magnitude x) := by
  unfold value
  split
  · rw [abs_neg, abs_of_nonneg (size_nonneg _)]
  · rw [abs_of_nonneg (size_nonneg _)]

theorem value_eq_zero_iff {x : Float} : value x = 0 ↔ magnitude x = 0 := by
  rw [← abs_eq_zero, abs_value, ← size_zero, strictMono_size.injective.eq_iff]

theorem value_neg_iff {x : Float} (hnonzero : value x ≠ 0) :
    value x < 0 ↔ isNegative x = true := by
  have hpos := size_pos (Nat.pos_of_ne_zero (mt value_eq_zero_iff.mpr hnonzero))
  unfold value
  split
  · rename_i hsign
    exact iff_of_true (neg_neg_of_pos hpos) hsign
  · rename_i hsign
    exact iff_of_false hpos.not_gt hsign

theorem value_le_value_iff {x y : Float} : value x ≤ value y ↔ rank x ≤ rank y := by
  have hle : ∀ {first second}, size first ≤ size second ↔ first ≤ second :=
    strictMono_size.le_iff_le
  have hx := size_nonneg (magnitude x)
  have hy := size_nonneg (magnitude y)
  have hzero : ∀ {pattern}, size pattern ≤ 0 ↔ pattern ≤ 0 := by
    intro pattern
    rw [← size_zero]
    exact hle
  unfold value rank
  split
  · split
    · rw [neg_le_neg_iff, neg_le_neg_iff, hle, Int.ofNat_le]
    · constructor
      · intro _
        omega
      · intro _
        linarith
  · split
    · constructor
      · intro h
        have hx0 := hzero.mp (by linarith : size (magnitude x) ≤ 0)
        have hy0 := hzero.mp (by linarith : size (magnitude y) ≤ 0)
        omega
      · intro h
        have hx0 : magnitude x = 0 := by omega
        have hy0 : magnitude y = 0 := by omega
        rw [hx0, hy0, size_zero, neg_zero]
    · rw [hle, Int.ofNat_le]

/-!
## Sign, mantissa and exponent

The mantissa of a finite double is its significand.  A subnormal double has the exponent of
the least normal one, as it has its shift.
-/

section

open Float.Model Float.Model.UnpackedFloat

def sign (negative : Bool) : Sign :=
  if negative then .negative else .positive

def unpacked (negative : Bool) (pattern : Nat) : UnpackedFloat :=
  if infinity < pattern then .notANumber
  else if pattern = infinity then .infinity (sign negative)
  else if h : 0 < significand pattern then
    .finite (sign negative) (significand pattern) (shift pattern - 1074) h
  else .zero (sign negative)

theorem toNat_unpackMantissa (b : BitVec 64) :
    (@unpackMantissa .binary64 b).toNat = b.toNat % 2 ^ 52 := by
  simp [unpackMantissa]

theorem toNat_unpackExponent (b : BitVec 64) :
    (@unpackExponent .binary64 b).toNat = b.toNat % 2 ^ 63 / 2 ^ 52 := by
  simp [unpackExponent, Nat.shiftRight_eq_div_pow]
  omega

theorem ofBitVec_unpackSign (b : BitVec 64) :
    Sign.ofBitVec (@unpackSign .binary64 b) = sign (2 ^ 63 ≤ b.toNat) := by
  have hlt : b.toNat < 2 ^ 64 := b.isLt
  have hsign : (@unpackSign .binary64 b).toNat = b.toNat / 2 ^ 63 := by
    simp [unpackSign, Nat.shiftRight_eq_div_pow]
    omega
  have hzero : @unpackSign .binary64 b = 0#1 ↔ ¬ 2 ^ 63 ≤ b.toNat := by
    rw [← BitVec.toNat_inj, hsign, BitVec.toNat_zero]
    omega
  unfold Sign.ofBitVec sign
  by_cases h : 2 ^ 63 ≤ b.toNat
  · rw [if_neg (mt hzero.mp (not_not_intro h)), decide_eq_true h, if_pos rfl]
  · rw [if_pos (hzero.mpr h), decide_eq_false h, if_neg Bool.false_ne_true]

theorem unpack_eq_unpacked (b : BitVec 64) :
    UnpackedFloat.unpack .binary64 b = unpacked (2 ^ 63 ≤ b.toNat) (b.toNat % 2 ^ 63) := by
  have hlt : b.toNat % 2 ^ 63 < 2 ^ 63 := Nat.mod_lt _ (by decide)
  have hmantissa : (@unpackMantissa .binary64 b).toNat = b.toNat % 2 ^ 63 % 2 ^ 52 := by
    rw [toNat_unpackMantissa]
    omega
  have hexponent := toNat_unpackExponent b
  have hinfinity : infinity = 2047 * 2 ^ 52 := rfl
  unfold UnpackedFloat.unpack
  dsimp only
  rw [ofBitVec_unpackSign]
  generalize b.toNat % 2 ^ 63 = pattern at hlt hmantissa hexponent ⊢
  have hones : @unpackExponent .binary64 b = -1#11 ↔ pattern / 2 ^ 52 = 2047 := by
    rw [← BitVec.toNat_inj, hexponent]
    rfl
  have hzeros : @unpackExponent .binary64 b = 0#11 ↔ pattern / 2 ^ 52 = 0 := by
    rw [← BitVec.toNat_inj, hexponent]
    rfl
  have hwhole : @unpackMantissa .binary64 b = 0#52 ↔ pattern % 2 ^ 52 = 0 := by
    rw [← BitVec.toNat_inj, hmantissa]
    rfl
  unfold unpacked
  by_cases hspecial : pattern / 2 ^ 52 = 2047
  · rw [if_pos (hones.mpr hspecial)]
    by_cases hfraction : pattern % 2 ^ 52 = 0
    · have hpattern : pattern = infinity := by omega
      rw [if_pos (hwhole.mpr hfraction), if_neg (Nat.not_lt.mpr hpattern.le), if_pos hpattern]
    · have hpattern : infinity < pattern := by omega
      rw [if_neg (mt hwhole.mp hfraction), if_pos hpattern]
  · have hpattern : pattern < infinity := by omega
    rw [if_neg (mt hones.mp hspecial), if_neg (Nat.not_lt.mpr hpattern.le),
      if_neg (Nat.ne_of_lt hpattern)]
    by_cases hsmall : pattern / 2 ^ 52 = 0
    · have hshift : shift pattern = 0 := by
        unfold shift
        omega
      have hsignificand : significand pattern = pattern % 2 ^ 52 := by
        unfold significand
        omega
      rw [if_pos (hzeros.mpr hsmall)]
      by_cases hfraction : pattern % 2 ^ 52 = 0
      · rw [dif_pos (hwhole.mpr hfraction), dif_neg (by omega)]
      · rw [dif_neg (mt hwhole.mp hfraction), dif_pos (by omega)]
        simp only [hmantissa, hsignificand, hexponent, hsmall, hshift]
        rfl
    · have hshift : shift pattern + 1 = pattern / 2 ^ 52 := by
        unfold shift
        omega
      have hsignificand : significand pattern = 2 ^ 52 + pattern % 2 ^ 52 := by
        unfold significand
        omega
      have happend : (1#1 ++ @unpackMantissa .binary64 b).toNat =
          2 ^ 52 + pattern % 2 ^ 52 := by
        have hlt' : pattern % 2 ^ 52 < 2 ^ 52 := Nat.mod_lt _ (by decide)
        rw [BitVec.toNat_append, hmantissa, ← Nat.shiftLeft_add_eq_or_of_lt hlt']
        rfl
      have hbias : ((Format.binary64.exponentBias : Nat) : Int) = 1023 := rfl
      rw [if_neg (mt hzeros.mp hsmall), dif_pos (by omega)]
      simp only [happend, hsignificand, hexponent, hbias, ← hshift]
      congr 1
      push_cast
      omega

theorem unpack_toModel (x : Float) :
    x.toModel.unpack = unpacked (isNegative x) (magnitude x) :=
  unpack_eq_unpacked x.toBits.toBitVec

/-! ## Doubles with a given sign and pattern -/

theorem toNat_toBits_ofMagnitude {pattern : Nat} (h : pattern ≤ infinity) (negative : Bool) :
    (ofMagnitude negative pattern).toBits.toNat =
      if negative then 2 ^ 63 + pattern else pattern := by
  have hinfinity : infinity = 2047 * 2 ^ 52 := rfl
  have hpow : Nat.pow 2 63 = 2 ^ 63 := rfl
  let bits := if negative then Nat.pow 2 63 + pattern else pattern
  have hlt : bits < 2 ^ 64 := by
    cases negative
    · show pattern < 2 ^ 64
      omega
    · show Nat.pow 2 63 + pattern < 2 ^ 64
      omega
  have hbits : (UInt64.ofNat bits).toNat = bits := UInt64.toNat_ofNat_of_lt hlt
  have hmod : bits % 2 ^ 63 = pattern := by
    cases negative
    · show pattern % 2 ^ 63 = pattern
      omega
    · show (Nat.pow 2 63 + pattern) % 2 ^ 63 = pattern
      omega
  have hvalid : Format.binary64.Valid (UInt64.ofNat bits).toBitVec := by
    constructor
    intro hones hfraction
    have hexponent := toNat_unpackExponent (UInt64.ofNat bits).toBitVec
    have hmantissa := toNat_unpackMantissa (UInt64.ofNat bits).toBitVec
    rw [UInt64.toNat_toBitVec, hbits] at hexponent hmantissa
    rw [hones, hmod] at hexponent
    have h2047 : (-1#11).toNat = 2047 := rfl
    rw [h2047] at hexponent
    exfalso
    apply hfraction
    rw [← BitVec.toNat_inj, hmantissa, BitVec.toNat_zero]
    omega
  have hpack := pack_unpack_of_valid hvalid
  show (UInt64.ofBitVec (UnpackedFloat.pack .binary64
    (UnpackedFloat.unpack .binary64 (UInt64.ofNat bits).toBitVec))).toNat = bits
  rw [hpack]
  exact hbits

theorem magnitude_ofMagnitude {pattern : Nat} (h : pattern ≤ infinity) (negative : Bool) :
    magnitude (ofMagnitude negative pattern) = pattern := by
  have hinfinity : infinity = 2047 * 2 ^ 52 := rfl
  rw [magnitude, toNat_toBits_ofMagnitude h, Nat.pow_eq]
  cases negative
  · rw [if_neg Bool.false_ne_true]
    omega
  · rw [if_pos rfl]
    omega

theorem isNegative_ofMagnitude {pattern : Nat} (h : pattern ≤ infinity) (negative : Bool) :
    isNegative (ofMagnitude negative pattern) = negative := by
  have hinfinity : infinity = 2047 * 2 ^ 52 := rfl
  rw [isNegative, toNat_toBits_ofMagnitude h, Nat.pow_eq]
  cases negative
  · rw [if_neg Bool.false_ne_true]
    apply decide_eq_false
    omega
  · rw [if_pos rfl]
    apply decide_eq_true
    omega

theorem magnitude_le_infinity {x : Float} (h : isNaN x = false) : magnitude x ≤ infinity :=
  Nat.le_of_not_lt (of_decide_eq_false h)

theorem ofMagnitude_eq_self {x : Float} (h : isNaN x = false) :
    ofMagnitude (isNegative x) (magnitude x) = x := by
  rw [← Float.toBits_inj, ← UInt64.toNat_inj, toNat_toBits_ofMagnitude (magnitude_le_infinity h)]
  unfold isNegative magnitude
  have hlt := x.toBits.toNat_lt
  have hpow : Nat.pow 2 63 = 2 ^ 63 := rfl
  rw [hpow]
  split
  · rename_i hnegative
    have := of_decide_eq_true hnegative
    omega
  · rename_i hpositive
    have := of_decide_eq_false (Bool.not_eq_true _ ▸ hpositive)
    omega

theorem unpack_neg {x : Float} (h : magnitude x ≤ infinity) :
    x.toModel.unpack.neg = unpacked (!isNegative x) (magnitude x) := by
  rw [unpack_toModel]
  unfold unpacked
  rw [if_neg (Nat.not_lt.mpr h), if_neg (Nat.not_lt.mpr h)]
  have hsign : -sign (isNegative x) = sign !(isNegative x) := by
    cases isNegative x <;> rfl
  rw [← hsign]
  split
  · rfl
  · split <;> rfl

theorem neg_eq_ofMagnitude {x : Float} (h : magnitude x ≤ infinity) :
    -x = ofMagnitude (!isNegative x) (magnitude x) := by
  let y := ofMagnitude (!isNegative x) (magnitude x)
  have hy : y.toModel.unpack = x.toModel.unpack.neg := by
    rw [unpack_neg h, unpack_toModel, magnitude_ofMagnitude h, isNegative_ofMagnitude h]
  have hpack := pack_unpack_of_valid y.toModel.valid
  rw [← Float.toBits_inj]
  show UInt64.ofBitVec (UnpackedFloat.pack .binary64 x.toModel.unpack.neg) = y.toModel.toBits
  rw [← hy]
  exact congrArg UInt64.ofBitVec hpack

/-! ## Order -/

theorem isNaN_of_isFinite {x : Float} (h : isFinite x = true) : isNaN x = false :=
  decide_eq_false (of_decide_eq_true h).asymm

theorem unpack_cases {x : Float} (h : isNaN x = false) :
    (magnitude x = 0 ∧ x.toModel.unpack = .zero (sign (isNegative x))) ∨
    (0 < magnitude x ∧ magnitude x < infinity ∧ ∃ hpos, x.toModel.unpack =
      .finite (sign (isNegative x)) (significand (magnitude x)) (shift (magnitude x) - 1074) hpos) ∨
    (magnitude x = infinity ∧ x.toModel.unpack = .infinity (sign (isNegative x))) := by
  have hle : magnitude x ≤ infinity := Nat.le_of_not_lt (of_decide_eq_false h)
  rw [unpack_toModel]
  rcases Nat.lt_or_eq_of_le hle with hlt | heq
  · rcases Nat.eq_zero_or_pos (magnitude x) with hzero | hpos
    · rw [hzero]
      exact Or.inl ⟨rfl, rfl⟩
    · have hsignificand : 0 < significand (magnitude x) := by
        unfold significand shift
        omega
      rw [unpacked, if_neg hlt.asymm, if_neg hlt.ne, dif_pos hsignificand]
      exact Or.inr (Or.inl ⟨hpos, hlt, hsignificand, rfl⟩)
  · rw [heq]
    exact Or.inr (Or.inr ⟨rfl, rfl⟩)

theorem compare_shift_then_significand (first second : Nat) :
    ((compare (shift first - 1074 : Int) (shift second - 1074)).then
      (compare (significand first) (significand second))) = compare first second := by
  have h1 := shift_add_significand first
  have h2 := shift_add_significand second
  have h3 := significand_lt first
  have h4 := significand_lt second
  have h5 := shift_eq_zero_or_le_significand first
  have h6 := shift_eq_zero_or_le_significand second
  rcases Nat.lt_trichotomy (shift first) (shift second) with hlt | heq | hgt
  · rw [compare_lt_iff_lt.mpr (by omega : (shift first - 1074 : Int) < shift second - 1074)]
    rw [compare_lt_iff_lt.mpr (by omega : first < second)]
    rfl
  · rw [compare_eq_iff_eq.mpr (by omega : (shift first - 1074 : Int) = shift second - 1074)]
    rw [Ordering.then]
    rcases Nat.lt_trichotomy (significand first) (significand second) with hlt' | heq' | hgt'
    · rw [compare_lt_iff_lt.mpr hlt', compare_lt_iff_lt.mpr (by omega : first < second)]
    · rw [compare_eq_iff_eq.mpr heq', compare_eq_iff_eq.mpr (by omega : first = second)]
    · rw [compare_gt_iff_gt.mpr hgt', compare_gt_iff_gt.mpr (by omega : second < first)]
  · rw [compare_gt_iff_gt.mpr (by omega : (shift second - 1074 : Int) < shift first - 1074)]
    rw [compare_gt_iff_gt.mpr (by omega : second < first)]
    rfl

theorem some_lt {first second : Int} (h : first < second) :
    some Ordering.lt = some (compare first second) := by
  rw [compare_lt_iff_lt.mpr h]

theorem some_gt {first second : Int} (h : second < first) :
    some Ordering.gt = some (compare first second) := by
  rw [compare_gt_iff_gt.mpr h]

theorem compare_cast (first second : Nat) :
    compare (first : Int) (second : Int) = compare first second := by
  rcases Nat.lt_trichotomy first second with hlt | rfl | hgt
  · rw [compare_lt_iff_lt.mpr hlt, compare_lt_iff_lt.mpr (by omega)]
  · rw [compare_eq_iff_eq.mpr rfl, compare_eq_iff_eq.mpr rfl]
  · rw [compare_gt_iff_gt.mpr hgt, compare_gt_iff_gt.mpr (by omega)]

theorem compare_neg_cast (first second : Nat) :
    compare (-(first : Int)) (-(second : Int)) = (compare first second).swap := by
  rcases Nat.lt_trichotomy first second with hlt | rfl | hgt
  · rw [compare_lt_iff_lt.mpr hlt, compare_gt_iff_gt.mpr (by omega)]
    rfl
  · rw [compare_eq_iff_eq.mpr rfl, compare_eq_iff_eq.mpr rfl]
    rfl
  · rw [compare_gt_iff_gt.mpr hgt, compare_lt_iff_lt.mpr (by omega)]
    rfl

/-- Two numbers are compared by their places on the line. -/
theorem compare_unpack {x y : Float} (hx : isNaN x = false) (hy : isNaN y = false) :
    x.toModel.unpack.compare y.toModel.unpack = some (compare (rank x) (rank y)) := by
  have hinfinity : (0 : Int) < infinity := by decide
  unfold rank
  -- the signs decide unless both numbers are finite, not zero, and of the same sign
  rcases unpack_cases hx with ⟨hx0, hunpack⟩ | ⟨hxpos, hxlt, h, hunpack⟩ | ⟨hxinf, hunpack⟩
  · rw [hunpack, hx0]
    rcases unpack_cases hy with ⟨hy0, hunpack'⟩ | ⟨hypos, _, h', hunpack'⟩ | ⟨hyinf, hunpack'⟩
    · rw [hunpack', hy0]
      cases isNegative x <;> cases isNegative y <;> rfl
    · rw [hunpack']
      cases isNegative x <;> cases isNegative y <;> first
        | exact some_lt (by simpa using hypos)
        | exact some_gt (by simpa using hypos)
    · rw [hunpack', hyinf]
      cases isNegative x <;> cases isNegative y <;> first
        | exact some_lt (by simpa using hinfinity)
        | exact some_gt (by simpa using hinfinity)
  · rw [hunpack]
    rcases unpack_cases hy with ⟨hy0, hunpack'⟩ | ⟨hypos, _, h', hunpack'⟩ | ⟨hyinf, hunpack'⟩
    · rw [hunpack', hy0]
      cases isNegative x <;> cases isNegative y <;> first
        | exact some_lt (by simpa using hxpos)
        | exact some_gt (by simpa using hxpos)
    · rw [hunpack']
      cases isNegative x
      · cases isNegative y
        · simp [UnpackedFloat.compare, sign, compare_shift_then_significand, compare_cast]
        · exact some_gt (by simp; omega)
      · cases isNegative y
        · exact some_lt (by simp; omega)
        · simp [UnpackedFloat.compare, sign, compare_shift_then_significand, compare_neg_cast]
    · rw [hunpack', hyinf]
      cases isNegative x <;> cases isNegative y <;> first
        | exact some_lt (by simp; omega)
        | exact some_gt (by simp; omega)
  · rw [hunpack, hxinf]
    rcases unpack_cases hy with ⟨hy0, hunpack'⟩ | ⟨hypos, hylt, h', hunpack'⟩ | ⟨hyinf, hunpack'⟩
    · rw [hunpack', hy0]
      cases isNegative x <;> cases isNegative y <;> first
        | exact some_lt (by simpa using hinfinity)
        | exact some_gt (by simpa using hinfinity)
    · rw [hunpack']
      cases isNegative x <;> cases isNegative y <;> first
        | exact some_lt (by simp; omega)
        | exact some_gt (by simp; omega)
    · rw [hunpack', hyinf]
      cases isNegative x <;> cases isNegative y <;> rfl

theorem le_iff_rank_le {x y : Float} (hx : isNaN x = false) (hy : isNaN y = false) :
    x ≤ y ↔ rank x ≤ rank y := by
  have hle : x ≤ y ↔ x.toModel.unpack.le y.toModel.unpack = true := decide_eq_true_iff
  rw [hle, UnpackedFloat.le, compare_unpack hx hy, Option.any_some, Std.isLE_compare]

theorem beq_iff_rank_eq {x y : Float} (hx : isNaN x = false) (hy : isNaN y = false) :
    (x == y) = true ↔ rank x = rank y := by
  show x.toModel.unpack.beq y.toModel.unpack = true ↔ _
  rw [UnpackedFloat.beq, compare_unpack hx hy]
  simp

theorem le_iff_value_le {x y : Float} (hx : isFinite x = true) (hy : isFinite y = true) :
    x ≤ y ↔ value x ≤ value y := by
  rw [le_iff_rank_le (isNaN_of_isFinite hx) (isNaN_of_isFinite hy), value_le_value_iff]

theorem lt_iff_value_lt {x y : Float} (hx : isFinite x = true) (hy : isFinite y = true) :
    x < y ↔ value x < value y := by
  have hlt : x < y ↔ x.toModel.unpack.lt y.toModel.unpack = true := decide_eq_true_iff
  rw [hlt, UnpackedFloat.lt, compare_unpack (isNaN_of_isFinite hx) (isNaN_of_isFinite hy),
    ← not_le, value_le_value_iff, not_le]
  simp [compare_lt_iff_lt]

end
end Double
end Calculator
