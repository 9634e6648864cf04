import Calculator.Proofs.ResultText

/-!
# The order of results

A greater number is never shown as a smaller one.  Numbers in the range of twelve places are
rounded to one grid, and so are the numbers of one decade.  Where two grids meet there is a
power of ten that lies on both, and what is shown of the smaller number does not pass it.

The main statement is `resultText_mono`.
-/

namespace Calculator
namespace NumberText

/-! ## Positive numbers -/

/-- Twelve places of a greater number that is shown with an exponent begin at `10 ^ 8`. -/
theorem mono_of_fixed_of_scientific {v w r s : ℚ} {e : ℤ} (hv : InFixedRange v)
    (hr : IsNearestMultiple ((10 : ℚ) ^ (-12 : ℤ)) v r) (hw : ¬ InFixedRange w)
    (hlower : (10 : ℚ) ^ e ≤ w) (hupper : w < (10 : ℚ) ^ (e + 1))
    (hs : IsNearestMultiple ((10 : ℚ) ^ (e - 10)) w s) (hle : v ≤ w) : r ≤ s := by
  rcases exponent_of_not_inFixedRange hw hlower hupper with ⟨hsmall, _⟩ | ⟨_, he⟩
  · exact absurd (hv.1.trans hle) hsmall.not_ge
  · have hlarge : v ≤ (10 : ℚ) ^ (8 : ℤ) := by
      rw [← value_leastLarge_eq]
      exact hv.2.le
    calc r ≤ (10 : ℚ) ^ (8 : ℤ) := hr.le_zpow (by decide) hlarge
      _ ≤ (10 : ℚ) ^ e := zpow_le_zpow_right₀ (by norm_num) he
      _ ≤ s := hs.zpow_le (by omega) hlower

theorem mono_of_scientific_of_fixed {v w r s : ℚ} {e : ℤ} (hv : ¬ InFixedRange v)
    (hlower : (10 : ℚ) ^ e ≤ v) (hupper : v < (10 : ℚ) ^ (e + 1))
    (hr : IsNearestMultiple ((10 : ℚ) ^ (e - 10)) v r) (hw : InFixedRange w)
    (hs : IsNearestMultiple ((10 : ℚ) ^ (-12 : ℤ)) w s) (hle : v ≤ w) : r ≤ s := by
  rcases exponent_of_not_inFixedRange hv hlower hupper with ⟨_, he⟩ | ⟨hlarge, _⟩
  · calc r ≤ (10 : ℚ) ^ (e + 1) := hr.le_zpow (by omega) hupper.le
      _ ≤ (10 : ℚ) ^ (-6 : ℤ) := zpow_le_zpow_right₀ (by norm_num) (by omega)
      _ ≤ s := zpow_le_of_inFixedRange hw hs
  · exact absurd (hlarge.trans hle) hw.2.not_ge

theorem mono_of_scientific {v w r s : ℚ} {e f : ℤ} (hv : (10 : ℚ) ^ e ≤ v)
    (hupper : v < (10 : ℚ) ^ (e + 1)) (hr : IsNearestMultiple ((10 : ℚ) ^ (e - 10)) v r)
    (hlower : (10 : ℚ) ^ f ≤ w) (hw : w < (10 : ℚ) ^ (f + 1))
    (hs : IsNearestMultiple ((10 : ℚ) ^ (f - 10)) w s) (hle : v ≤ w) : r ≤ s := by
  have hdecades : e < f + 1 := by
    have h := (hv.trans hle).trans_lt hw
    rwa [zpow_lt_zpow_iff_right₀ (by norm_num)] at h
  rcases eq_or_lt_of_le (Int.lt_add_one_iff.mp hdecades) with rfl | hlt
  · exact hr.mono hs hle
  · calc r ≤ (10 : ℚ) ^ (e + 1) := hr.le_zpow (by omega) hupper.le
      _ ≤ (10 : ℚ) ^ f := zpow_le_zpow_right₀ (by norm_num) (by omega)
      _ ≤ s := hs.zpow_le (by omega) hlower

theorem Shown.mono {v w : ℚ} {n m : Numeral} (hv : Shown v n) (hw : Shown w m) (hle : v ≤ w) :
    n.value.toRat ≤ m.value.toRat := by
  cases hv with
  | fixed hvrange _ hr =>
      cases hw with
      | fixed _ _ hs => exact hr.mono hs hle
      | scientific f hwrange _ hlower hupper hs =>
          exact mono_of_fixed_of_scientific hvrange hr hwrange hlower hupper hs hle
  | scientific e hvrange _ hlower hupper hr =>
      cases hw with
      | fixed hwrange _ hs =>
          exact mono_of_scientific_of_fixed hvrange hlower hupper hr hwrange hs hle
      | scientific f _ _ hlower' hupper' hs =>
          exact mono_of_scientific hlower hupper hr hlower' hupper' hs hle

/-! ## Both signs and zero -/

/-- A number, and the number that its text denotes. -/
inductive Displayed : ℚ → ℚ → Prop where
  | zero : Displayed 0 0
  | pos {v : ℚ} {n : Numeral} : 0 < v → Shown v n → Displayed v n.value.toRat
  | neg {v : ℚ} {n : Numeral} : 0 < v → Shown v n → Displayed (-v) (-n.value.toRat)

theorem Displayed.mono {v w r s : ℚ} (hv : Displayed v r) (hw : Displayed w s) (hle : v ≤ w) :
    r ≤ s := by
  cases hv with
  | zero =>
      cases hw with
      | zero => exact le_rfl
      | pos _ hm => exact hm.pos.le
      | neg hpos _ => linarith
  | pos hvpos hn =>
      cases hw with
      | zero => linarith
      | pos _ hm => exact hn.mono hm hle
      | neg hpos _ => linarith
  | neg hvpos hn =>
      have hnpos := hn.pos
      cases hw with
      | zero => linarith
      | pos _ hm => linarith [hm.pos]
      | neg _ hm => exact neg_le_neg (hm.mono hn (neg_le_neg_iff.mp hle))

theorem denotes_zero : Denotes ['0'] 0 := by
  rcases exists_numeral_zero with ⟨n, hwellFormed, htext, hvalue⟩
  rw [← htext, ← hvalue]
  exact Denotes.numeral hwellFormed

theorem exists_displayed_resultText {x : Float} (hfinite : Double.isFinite x = true) :
    ∃ q : ℚ, Denotes (resultText x).toList q ∧ Displayed (Double.value x) q := by
  by_cases hzero : Double.value x = 0
  · rw [resultText_of_value_eq_zero hzero, hzero]
    exact ⟨0, denotes_zero, Displayed.zero⟩
  · rcases exists_shown_resultText hfinite hzero with ⟨n, hshown, htext⟩
    rw [htext]
    split
    · rename_i hneg
      rw [abs_of_neg hneg] at hshown
      refine ⟨-n.value.toRat, Denotes.minus hshown.wellFormed, ?_⟩
      have h := Displayed.neg (neg_pos.mpr hneg) hshown
      rwa [neg_neg] at h
    · rename_i hnonneg
      have hnonneg' := not_lt.mp hnonneg
      rw [abs_of_nonneg hnonneg'] at hshown
      exact ⟨n.value.toRat, Denotes.numeral hshown.wellFormed,
        Displayed.pos (lt_of_le_of_ne hnonneg' (Ne.symm hzero)) hshown⟩

/-! ## Every pair of results -/

/-- Both texts denote a number, and the numbers are in the order of the doubles. -/
theorem resultText_mono (x y : Float) (hx : Double.isFinite x = true)
    (hy : Double.isFinite y = true) (hle : x ≤ y) :
    (∃ p, Denotes (resultText x).toList p) ∧ (∃ q, Denotes (resultText y).toList q) ∧
      ∀ p q, Denotes (resultText x).toList p → Denotes (resultText y).toList q → p ≤ q := by
  rcases exists_displayed_resultText hx with ⟨p, hp, hpx⟩
  rcases exists_displayed_resultText hy with ⟨q, hq, hqy⟩
  refine ⟨⟨p, hp⟩, ⟨q, hq⟩, ?_⟩
  intro p' q' hp' hq'
  rw [hp'.unique hp, hq'.unique hq]
  exact hpx.mono hqy ((Double.le_iff_value_le hx hy).mp hle)

theorem resultText_mono_at_least_fixed :
    Double.isFinite 9.9999999999999e-7 = true ∧ Double.isFinite 1e-6 = true ∧
      (9.9999999999999e-7 : Float) ≤ 1e-6 ∧
      (∃ p, Denotes (resultText 9.9999999999999e-7).toList p) ∧
      (∃ q, Denotes (resultText 1e-6).toList q) ∧
      ∀ p q, Denotes (resultText 9.9999999999999e-7).toList p →
        Denotes (resultText 1e-6).toList q → p ≤ q := by
  have hx : Double.isFinite 9.9999999999999e-7 = true := by decide +kernel
  have hy : Double.isFinite 1e-6 = true := by decide +kernel
  have hle : (9.9999999999999e-7 : Float) ≤ 1e-6 := by decide +kernel
  exact ⟨hx, hy, hle, resultText_mono _ _ hx hy hle⟩

example : resultText 9.9999999999999e-7 = "1.0000000000e-6" ∧ resultText 1e-6 = "0.000001" := by
  decide +kernel

end NumberText
end Calculator
