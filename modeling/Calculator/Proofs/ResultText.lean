import Calculator.NumberText
import Calculator.Proofs.DecimalGrid

/-!
# The text of a result

A result is shown with twelve places from the double `1e-6` up to the double `1e8`, and
otherwise with eleven digits and an exponent.  Either way the text is the numeral of the
nearest number that has so many places or digits.

The main statement is `resultText_nearest_canonical`.
-/

namespace Calculator
namespace NumberText

open Double (value_eq_zero_iff value_neg_iff)

def InFixedRange (v : ℚ) : Prop :=
  Double.value 1e-6 ≤ v ∧ v < Double.value 1e8

/-! ## The two ends of the range -/

theorem value_leastFixed : Double.value 1e-6 = Double.size leastFixed := by
  have hnegative : Double.isNegative 1e-6 = false := by decide +kernel
  have hmagnitude : Double.magnitude 1e-6 = leastFixed := by decide +kernel
  rw [Double.value, hnegative, hmagnitude]
  rfl

theorem value_leastLarge : Double.value 1e8 = Double.size leastLarge := by
  have hnegative : Double.isNegative 1e8 = false := by decide +kernel
  have hmagnitude : Double.magnitude 1e8 = leastLarge := by decide +kernel
  rw [Double.value, hnegative, hmagnitude]
  rfl

theorem inFixedRange_size_iff {pattern : Nat} :
    InFixedRange (Double.size pattern) ↔ leastFixed ≤ pattern ∧ pattern < leastLarge := by
  rw [InFixedRange, value_leastFixed, value_leastLarge, Double.strictMono_size.le_iff_le,
    Double.strictMono_size.lt_iff_lt]

theorem value_leastFixed_le : Double.value 1e-6 ≤ (10 : ℚ) ^ (-6 : ℤ) := by
  have h : Double.units leastFixed * 10 ^ 6 ≤ Double.unitsPerOne := by decide +kernel
  rw [value_leastFixed, Double.size, div_le_iff₀ Double.unitsPerOne_cast_pos, zpow_neg,
    le_inv_mul_iff₀ (by positivity), mul_comm]
  exact_mod_cast h

theorem value_leastLarge_eq : Double.value 1e8 = (10 : ℚ) ^ (8 : ℤ) := by
  have h : Double.units leastLarge = 10 ^ 8 * Double.unitsPerOne := by decide +kernel
  rw [value_leastLarge, Double.size, div_eq_iff Double.unitsPerOne_cast_pos.ne']
  exact_mod_cast h

theorem isNearestMultiple_leastFixed :
    IsNearestMultiple ((10 : ℚ) ^ (-12 : ℤ)) (Double.value 1e-6) ((10 : ℚ) ^ (-6 : ℤ)) := by
  have hplaces : Decimal.toPlaces leastFixed 12 = ⟨10 ^ 6, -12⟩ := by decide +kernel
  have h := Decimal.isNearestMultiple_toPlaces leastFixed 12
  have htoRat : (10 : ℚ) ^ (-6 : ℤ) = Decimal.toRat ⟨10 ^ 6, -12⟩ := by
    norm_num [Decimal.toRat]
  rw [hplaces, ← value_leastFixed, ← htoRat] at h
  exact h

/-! ## Positive magnitudes -/

/-- A positive number, and the numeral that shows it. -/
inductive Shown (v : ℚ) (n : Numeral) : Prop where
  | fixed : InFixedRange v → n.IsFixed 12 →
      IsNearestMultiple ((10 : ℚ) ^ (-12 : ℤ)) v n.value.toRat → Shown v n
  | scientific (e : ℤ) : ¬ InFixedRange v → n.IsScientific 10 → (10 : ℚ) ^ e ≤ v →
      v < (10 : ℚ) ^ (e + 1) → IsNearestMultiple ((10 : ℚ) ^ (e - 10)) v n.value.toRat →
      Shown v n

/-- A number out of the range is in a decade below `10 ^ (-6)`, or in one from `10 ^ 8` on. -/
theorem exponent_of_not_inFixedRange {v : ℚ} {e : ℤ} (hv : ¬ InFixedRange v)
    (hlower : (10 : ℚ) ^ e ≤ v) (hupper : v < (10 : ℚ) ^ (e + 1)) :
    (v < Double.value 1e-6 ∧ e ≤ -7) ∨ (Double.value 1e8 ≤ v ∧ 8 ≤ e) := by
  have hten : (1 : ℚ) < 10 := by norm_num
  by_cases hsmall : v < Double.value 1e-6
  · left
    have h := (hlower.trans_lt hsmall).trans_le value_leastFixed_le
    rw [zpow_lt_zpow_iff_right₀ hten] at h
    exact ⟨hsmall, by omega⟩
  · right
    have hlarge : Double.value 1e8 ≤ v := by
      by_contra hlt
      exact hv ⟨not_lt.mp hsmall, not_le.mp hlt⟩
    have h := hlarge.trans_lt hupper
    rw [value_leastLarge_eq, zpow_lt_zpow_iff_right₀ hten] at h
    exact ⟨hlarge, by omega⟩

theorem shown_positionalNumeral {pattern : Nat} (hrange : InFixedRange (Double.size pattern)) :
    Shown (Double.size pattern)
      (Decimal.positionalNumeral (Decimal.toPlaces pattern 12).coefficient 12) := by
  have hvalue : (Decimal.toPlaces pattern 12).toRat =
      (Decimal.positionalNumeral (Decimal.toPlaces pattern 12).coefficient 12).value.toRat := by
    rw [Decimal.toRat_positionalNumeral]
    rfl
  apply Shown.fixed hrange (Decimal.isFixed_positionalNumeral _ _)
  rw [← hvalue]
  exact Decimal.isNearestMultiple_toPlaces pattern 12

theorem shown_scientificNumeral {pattern : Nat} (hpos : 0 < pattern)
    (hrange : ¬ InFixedRange (Double.size pattern)) :
    Shown (Double.size pattern) (Decimal.scientificNumeral (Decimal.toSignificant pattern 10)) ∧
      1 < (Digits.write (Decimal.toSignificant pattern 10).coefficient).length := by
  rcases Decimal.exists_isSignificant hpos 10 with ⟨e, h⟩
  have hlength := Digits.length_write_eq h.pow_le_coefficient h.coefficient_lt_pow
  have hdecade := exponent_of_not_inFixedRange hrange h.zpow_le h.lt_zpow
  have hexponent := h.exponent
  constructor
  · apply Shown.scientific e hrange _ h.zpow_le h.lt_zpow
    · rw [Decimal.value_scientificNumeral hlength]
      exact h.nearest
    · apply Decimal.isScientific_scientificNumeral _ hlength (by omega)
      exact Nat.lt_of_lt_of_le (by decide) h.pow_le_coefficient
  · rw [hlength]
    decide

theorem Shown.wellFormed {v : ℚ} {n : Numeral} (h : Shown v n) : n.WellFormed := by
  cases h with
  | fixed _ hform _ => exact hform.wellFormed
  | scientific e _ hform _ _ _ => exact hform.wellFormed

theorem zpow_le_of_inFixedRange {v r : ℚ} (hrange : InFixedRange v)
    (h : IsNearestMultiple ((10 : ℚ) ^ (-12 : ℤ)) v r) : (10 : ℚ) ^ (-6 : ℤ) ≤ r :=
  isNearestMultiple_leastFixed.mono h hrange.1

theorem Shown.pos {v : ℚ} {n : Numeral} (h : Shown v n) : 0 < n.value.toRat := by
  cases h with
  | fixed hrange _ hnearest =>
      exact lt_of_lt_of_le (by positivity) (zpow_le_of_inFixedRange hrange hnearest)
  | scientific e _ _ hlower _ hnearest =>
      exact lt_of_lt_of_le (by positivity) (hnearest.zpow_le (by omega) hlower)

/-! ## Texts and their signs -/

theorem resultText_of_value_eq_zero {x : Float} (hzero : Double.value x = 0) :
    resultText x = "0" := by
  have hmagnitude := value_eq_zero_iff.mp hzero
  unfold resultText Double.isNaN Double.isInfinite
  rw [hmagnitude]
  rfl

theorem signed_eq (x : Float) (cs : List Char) :
    signed x cs = (if Double.isNegative x then ['-'] else []) ++ cs := by
  unfold signed
  split
  · rfl
  · rfl

theorem trimEnd_fixedText (x : Float) (places : Nat) :
    Digits.trimEnd '.' (Digits.trimEnd '0' (fixedText x places)) =
      signed x (Decimal.positionalNumeral
        (Decimal.toPlaces (Double.magnitude x) places).coefficient places).text := by
  rw [fixedText, signed_eq, signed_eq]
  exact Decimal.trimEnd_allPlaces _ _ _

theorem withExponentSign_append {mantissa exponent : List Char} (h : ∀ c ∈ mantissa, c ≠ 'e') :
    withExponentSign (mantissa ++ 'e' :: exponent) = mantissa ++
      'e' :: if exponent.head? = some '-' then exponent else '+' :: exponent := by
  have hmantissa : ∀ c ∈ mantissa, decide (c ≠ 'e') = true := by
    intro c hc
    exact decide_eq_true (h c hc)
  rw [withExponentSign, List.dropWhile_append_of_pos hmantissa,
    List.takeWhile_append_of_pos hmantissa]
  show (if exponent.head? = some '-' then _ else _ ++ [] ++ _) = _
  split
  · rfl
  · rw [List.append_nil]

theorem ne_of_mem_pointAfterFirst {digits : List Char} (h : ∀ c ∈ digits, c.isDigit = true) :
    ∀ c ∈ Decimal.pointAfterFirst digits, c ≠ 'e' := by
  rintro c hc rfl
  match digits, hc with
  | [_], hc => exact absurd (h _ hc) (by decide)
  | first :: second :: rest, hc =>
      rcases List.mem_cons.mp hc with rfl | hc
      · exact absurd (h _ List.mem_cons_self) (by decide)
      · rcases List.mem_cons.mp hc with hpoint | hc
        · exact absurd hpoint (by decide)
        · exact absurd (h _ (List.mem_cons_of_mem _ hc)) (by decide)

theorem withExponentSign_scientific (x : Float) {d : Decimal}
    (h : 1 < (Digits.write d.coefficient).length) :
    withExponentSign (signed x d.scientific) = signed x (Decimal.scientificNumeral d).text := by
  have hmantissa : ∀ c ∈ (if Double.isNegative x then ['-'] else []) ++
      Decimal.pointAfterFirst (Digits.write d.coefficient), c ≠ 'e' := by
    intro c hc
    rcases List.mem_append.mp hc with hsign | hc
    · split at hsign
      · rw [List.mem_singleton.mp hsign]
        decide
      · cases hsign
    · exact ne_of_mem_pointAfterFirst (Digits.isDigit_of_mem_write _) c hc
  -- the digits of an exponent do not start with a minus
  have hdigits : (Digits.write d.firstExponent.natAbs).head? ≠ some '-' := by
    intro hhead
    exact absurd (Digits.isDigit_of_mem_write _ _ (List.mem_of_head? hhead)) (by decide)
  rw [signed_eq, signed_eq, Decimal.text_scientificNumeral h, Decimal.scientific,
    Decimal.withExponent, ← List.append_assoc, withExponentSign_append hmantissa,
    List.append_assoc, Decimal.exponentSign]
  by_cases hneg : d.firstExponent < 0
  · rw [if_pos hneg, if_pos hneg]
    rfl
  · rw [if_neg hneg, if_neg hneg, List.nil_append, if_neg hdigits]

theorem exists_shown_signed {x : Float} (hfinite : Double.isFinite x = true)
    (hpos : 0 < Double.magnitude x) :
    ∃ n : Numeral, Shown (Double.size (Double.magnitude x)) n ∧
      (resultText x).toList = signed x n.text := by
  rw [Double.isFinite, decide_eq_true_iff] at hfinite
  have hnan : Double.isNaN x = false := decide_eq_false hfinite.not_gt
  have hinfinite : Double.isInfinite x = false := decide_eq_false hfinite.ne
  rw [resultText, hnan, hinfinite, if_neg Bool.false_ne_true, if_neg Bool.false_ne_true,
    if_neg hpos.ne', isFixedMagnitude]
  split
  · rename_i hrange
    rw [Bool.and_eq_true, decide_eq_true_eq, decide_eq_true_eq, ← inFixedRange_size_iff] at hrange
    refine ⟨_, shown_positionalNumeral hrange, ?_⟩
    rw [String.toList_ofList, trimEnd_fixedText]
  · rename_i hrange
    rw [Bool.and_eq_true, decide_eq_true_eq, decide_eq_true_eq, ← inFixedRange_size_iff] at hrange
    rcases shown_scientificNumeral hpos hrange with ⟨hshown, hlength⟩
    refine ⟨_, hshown, ?_⟩
    rw [String.toList_ofList]
    exact withExponentSign_scientific x hlength

theorem exists_numeral_zero :
    ∃ n : Numeral, n.WellFormed ∧ n.text = ['0'] ∧ n.value.toRat = 0 := by
  refine ⟨Decimal.positionalNumeral 0 0, (Decimal.isFixed_positionalNumeral 0 0).wellFormed,
    ?_, ?_⟩
  · rw [Decimal.text_positionalNumeral]
    decide +kernel
  · rw [Decimal.toRat_positionalNumeral, Nat.cast_zero, zero_div]

theorem exists_shown_resultText {x : Float} (hfinite : Double.isFinite x = true)
    (hnonzero : Double.value x ≠ 0) :
    ∃ n : Numeral, Shown |Double.value x| n ∧
      (resultText x).toList = (if Double.value x < 0 then ['-'] else []) ++ n.text := by
  have hpos := Nat.pos_of_ne_zero (mt value_eq_zero_iff.mpr hnonzero)
  rcases exists_shown_signed hfinite hpos with ⟨n, hshown, htext⟩
  refine ⟨n, ?_, ?_⟩
  · rw [Double.abs_value]
    exact hshown
  · simp only [value_neg_iff hnonzero]
    rw [htext, signed_eq]

/-! ## Every number but zero -/

/-- The text of a number: a minus if it is negative, a numeral, and what the two denote. -/
structure CanonicalText (v : ℚ) (text : List Char) (n : Numeral) (q : ℚ) : Prop where
  text_eq : text = (if v < 0 then ['-'] else []) ++ n.text
  denotes : Denotes text q
  /-- Twelve places are enough to tell a number of the range from zero. -/
  fixed : InFixedRange |v| →
    n.IsFixed 12 ∧ q ≠ 0 ∧ IsNearestMultiple ((10 : ℚ) ^ (-12 : ℤ)) v q
  /-- Eleven digits, of which the first belongs to the decade of the number. -/
  scientific : ¬ InFixedRange |v| →
    n.IsScientific 10 ∧ ∃ e : ℤ, (10 : ℚ) ^ e ≤ |v| ∧ |v| < (10 : ℚ) ^ (e + 1) ∧
      IsNearestMultiple ((10 : ℚ) ^ (e - 10)) v q

theorem resultText_nearest_canonical (x : Float) (hfinite : Double.isFinite x = true)
    (hnonzero : Double.value x ≠ 0) :
    ∃ (n : Numeral) (q : ℚ), CanonicalText (Double.value x) (resultText x).toList n q := by
  rcases exists_shown_resultText hfinite hnonzero with ⟨n, hshown, htext⟩
  -- the sign is put back on the number that is shown of the magnitude
  have hsigned : ∃ q : ℚ, Denotes (resultText x).toList q ∧ |q| = |n.value.toRat| ∧
      ∀ unit : ℚ, IsNearestMultiple unit |Double.value x| n.value.toRat →
        IsNearestMultiple unit (Double.value x) q := by
    rw [htext]
    split
    · rename_i hneg
      refine ⟨-n.value.toRat, Denotes.minus hshown.wellFormed, abs_neg _, ?_⟩
      intro unit h
      rw [abs_of_neg hneg] at h
      simpa using h.neg
    · rename_i hnonneg
      refine ⟨n.value.toRat, Denotes.numeral hshown.wellFormed, rfl, ?_⟩
      intro unit h
      rw [abs_of_nonneg (not_lt.mp hnonneg)] at h
      exact h
  rcases hsigned with ⟨q, hdenotes, habs, hnearest⟩
  have hpos := hshown.pos
  refine ⟨n, q, htext, hdenotes, ?_, ?_⟩
  · intro hin
    cases hshown with
    | fixed _ hform h =>
        refine ⟨hform, ?_, hnearest _ h⟩
        rw [← abs_pos, habs]
        exact abs_pos_of_pos hpos
    | scientific e hout _ _ _ _ => exact absurd hin hout
  · intro hout
    cases hshown with
    | fixed hin _ _ => exact absurd hin hout
    | scientific e _ hform hlower hupper h => exact ⟨hform, e, hlower, hupper, hnearest _ h⟩

/-- Rounding takes this number out of its decade. -/
theorem resultText_nearest_canonical_next_decade :
    Double.isFinite (-9.99999999999999e-8) = true ∧ Double.value (-9.99999999999999e-8) ≠ 0 ∧
      ∃ (n : Numeral) (q : ℚ), CanonicalText (Double.value (-9.99999999999999e-8))
        (resultText (-9.99999999999999e-8)).toList n q := by
  have hfinite : Double.isFinite (-9.99999999999999e-8) = true := by decide +kernel
  have hmagnitude : Double.magnitude (-9.99999999999999e-8) ≠ 0 := by decide +kernel
  have hnonzero := mt value_eq_zero_iff.mp hmagnitude
  exact ⟨hfinite, hnonzero, resultText_nearest_canonical _ hfinite hnonzero⟩

example : resultText (-9.99999999999999e-8) = "-1.0000000000e-7" := by decide +kernel

end NumberText
end Calculator
