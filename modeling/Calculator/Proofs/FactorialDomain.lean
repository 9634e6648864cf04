import Calculator.Factorial
import Calculator.Proofs.ExactValue

/-!
# The domain of the factorial

Every double is of one of five kinds: it is not finite, or below zero, or another number that
is not whole, or a whole number above 170, or one up to 170.  The factorial has a value for
the last kind only, and for each of the others a cause of its own, which carries the double.

Whether a double is whole, and which number it is, is read off its count of units, which is
exact at any size.  So a whole number is not lost on the way to the product, however large it
is, and the bound of 32 bits on this way only takes numbers away that are too large.

The main statement is `factorial_partition`.
-/

namespace Calculator
namespace Double

/-! ## Whole numbers -/

/-- A finite double and the integer that it is. -/
def IsInteger (x : Float) (n : ℤ) : Prop :=
  isFinite x = true ∧ value x = n

section

variable {x y : Float}

theorem isFinite_eq_false_iff : isFinite x = false ↔ isNaN x = true ∨ isInfinite x = true := by
  unfold isFinite isNaN isInfinite
  rw [decide_eq_false_iff_not, decide_eq_true_iff, decide_eq_true_iff, Nat.not_lt,
    Nat.le_iff_lt_or_eq, eq_comm (a := infinity)]

theorem isBelowZero_iff (hfinite : isFinite x = true) : isBelowZero x = true ↔ value x < 0 := by
  have hle : magnitude x ≤ infinity := (of_decide_eq_true hfinite).le
  by_cases hzero : value x = 0
  · have hmagnitude := value_eq_zero_iff.mp hzero
    simp [isBelowZero, hmagnitude, hzero]
  · have hpos := Nat.pos_of_ne_zero (mt value_eq_zero_iff.mpr hzero)
    rw [value_neg_iff hzero]
    simp [isBelowZero, hpos, hle]

theorem isBelowZero_eq_false_iff (hfinite : isFinite x = true) :
    isBelowZero x = false ↔ 0 ≤ value x := by
  rw [← Bool.not_eq_true, isBelowZero_iff hfinite, not_lt]

theorem size_eq_natCast_iff {pattern n : Nat} :
    size pattern = n ↔ units pattern = n * unitsPerOne := by
  rw [size, div_eq_iff unitsPerOne_cast_pos.ne']
  exact_mod_cast Iff.rfl

theorem IsInteger.units_eq {n : ℤ} (h : IsInteger x n) :
    units (magnitude x) = n.natAbs * unitsPerOne := by
  rw [← size_eq_natCast_iff, ← abs_value, h.2, Nat.cast_natAbs, Int.cast_abs]

theorem isWhole_iff : isWhole x = true ↔ ∃ n : ℤ, IsInteger x n := by
  rw [isWhole, Bool.and_eq_true, Bool.not_eq_true', hasFraction, decide_eq_false_iff_not, not_not]
  constructor
  · intro h
    rcases h with ⟨hfinite, hmod⟩
    have hsize : size (magnitude x) = (units (magnitude x) / unitsPerOne : ℕ) := by
      rw [size_eq_natCast_iff]
      exact (Nat.div_mul_cancel (Nat.dvd_of_mod_eq_zero hmod)).symm
    cases hsign : isNegative x with
    | true =>
        refine ⟨-(units (magnitude x) / unitsPerOne : ℕ), hfinite, ?_⟩
        rw [value, if_pos hsign, hsize, Int.cast_neg, Int.cast_natCast]
    | false =>
        refine ⟨(units (magnitude x) / unitsPerOne : ℕ), hfinite, ?_⟩
        rw [value, hsign, if_neg Bool.false_ne_true, hsize, Int.cast_natCast]
  · intro h
    rcases h with ⟨n, hn⟩
    refine ⟨hn.1, ?_⟩
    rw [hn.units_eq, Nat.mul_mod_left]

theorem isInteger_of_units {n : Nat} (hfinite : isFinite x = true) (hsign : isNegative x = false)
    (hunits : units (magnitude x) = n * unitsPerOne) : IsInteger x n := by
  refine ⟨hfinite, ?_⟩
  rw [value, hsign, if_neg Bool.false_ne_true, size_eq_natCast_iff.mpr hunits, Int.cast_natCast]

theorem IsInteger.isBelowZero_eq_false {n : Nat} (h : IsInteger x n) : isBelowZero x = false := by
  rw [isBelowZero_eq_false_iff h.1, h.2]
  exact_mod_cast Nat.zero_le n

theorem IsInteger.exists_nat {n : ℤ} (h : IsInteger x n) (hnonneg : 0 ≤ value x) :
    ∃ k : ℕ, IsInteger x k := by
  rw [h.2, Int.cast_nonneg_iff] at hnonneg
  lift n to ℕ using hnonneg
  exact ⟨n, h⟩

theorem eq_of_value_eq (hx : isFinite x = true) (hy : isFinite y = true) (hne : value x ≠ 0)
    (h : value x = value y) : x = y := by
  have hmagnitude : magnitude x = magnitude y := by
    apply strictMono_size.injective
    rw [← abs_value, ← abs_value, h]
  have hsign : isNegative x = isNegative y := by
    rw [Bool.eq_iff_iff, ← value_neg_iff hne, ← value_neg_iff (h ▸ hne), h]
  rw [← ofMagnitude_eq_self (isNaN_of_isFinite hx), hmagnitude, hsign,
    ofMagnitude_eq_self (isNaN_of_isFinite hy)]

/-! ## Words -/

theorem isInteger_maxWord : IsInteger (Float.ofNat maxWord) maxWord := by
  apply isInteger_of_units <;> decide +kernel

theorem IsInteger.maxWord_lt_iff {n : Nat} (h : IsInteger x n) :
    Float.ofNat maxWord < x ↔ maxWord < n := by
  rw [lt_iff_value_lt isInteger_maxWord.1 h.1, isInteger_maxWord.2, h.2]
  exact_mod_cast Iff.rfl

theorem IsInteger.saturate_eq {n : Nat} (h : IsInteger x n) (hle : n ≤ maxWord) :
    saturate x = n := by
  rw [saturate, isNaN_of_isFinite h.1, Bool.false_or]
  cases hsign : isNegative x with
  | true =>
      -- only a zero has the sign of a number below zero
      have hzero : (n : ℚ) ≤ 0 := by
        have hvalue := h.2
        rw [value, if_pos hsign, Int.cast_natCast] at hvalue
        rw [← hvalue, neg_nonpos, ← abs_value]
        exact abs_nonneg _
      rw [if_pos rfl]
      exact_mod_cast (hzero.antisymm (Nat.cast_nonneg n)).symm
  | false =>
      rw [if_neg Bool.false_ne_true, wholePart, h.units_eq, Int.natAbs_natCast,
        Nat.mul_div_cancel _ unitsPerOne_pos, Nat.min_eq_left hle]

theorem toWord?_of_isInteger {n : Nat} (h : IsInteger x n) :
    toWord? x = if maxWord < n then none else some (saturate x) := by
  have hwhole := isWhole_iff.mpr ⟨_, h⟩
  rw [isWhole, h.1, Bool.true_and, Bool.not_eq_true'] at hwhole
  rw [toWord?, h.1, h.isBelowZero_eq_false, hwhole]
  simp [h.maxWord_lt_iff]

theorem exists_isInteger_of_toWord? {n : Nat} (h : toWord? x = some n) :
    ∃ k : ℕ, IsInteger x k := by
  rw [toWord?] at h
  split at h
  · cases h
  · rename_i hguards
    simp only [Bool.or_eq_true, not_or, Bool.not_eq_true, Bool.not_eq_false'] at hguards
    rcases hguards with ⟨⟨⟨hfinite, hsign⟩, _⟩, hfraction⟩
    have hwhole : isWhole x = true := by rw [isWhole, hfinite, hfraction]; rfl
    rcases isWhole_iff.mp hwhole with ⟨k, hk⟩
    exact hk.exists_nat ((isBelowZero_eq_false_iff hfinite).mp hsign)

theorem toWord?_eq_some_iff {n : Nat} :
    toWord? x = some n ↔ n ≤ 4294967295 ∧ IsInteger x n := by
  constructor
  · intro h
    rcases exists_isInteger_of_toWord? h with ⟨k, hk⟩
    rw [toWord?_of_isInteger hk] at h
    split at h
    · cases h
    · rename_i hle
      rw [hk.saturate_eq (Nat.not_lt.mp hle), Option.some.injEq] at h
      subst h
      exact ⟨Nat.not_lt.mp hle, hk⟩
  · rintro ⟨hle, hn⟩
    have hword : ¬ maxWord < n := Nat.not_lt.mpr hle
    rw [toWord?_of_isInteger hn, if_neg hword, hn.saturate_eq hle]

end

theorem isInteger_ofNat {n : Nat} (h : n ≤ maxFactorial) : IsInteger (Float.ofNat n) n := by
  have hfactors : ∀ k < maxFactorial + 1, isFinite (Float.ofNat k) = true ∧
      isNegative (Float.ofNat k) = false ∧
      units (magnitude (Float.ofNat k)) = k * unitsPerOne := by decide +kernel
  rcases hfactors n (Nat.lt_succ_of_le h) with ⟨hfinite, hsign, hunits⟩
  exact isInteger_of_units hfinite hsign hunits

end Double

open Double (IsInteger)

/-! ## The product -/

/-- The product of the doubles `2, 3, …, n`, multiplied from the left and starting with `1`. -/
inductive IsProductTo : ℕ → Float → Prop where
  | zero : IsProductTo 0 1
  | one : IsProductTo 1 1
  | next {n : ℕ} {product factor : Float} : IsProductTo (n + 1) product →
      IsInteger factor (n + 2) → IsProductTo (n + 2) (product * factor)

theorem productTo_add_two (n : ℕ) :
    productTo (n + 2) = productTo (n + 1) * Float.ofNat (n + 2) := by
  have hrange : List.range' 2 (n + 2 - 1) = List.range' 2 (n + 1 - 1) ++ [n + 2] := by
    rw [Nat.add_sub_cancel, show n + 2 - 1 = n + 1 from rfl, List.range'_1_concat, Nat.add_comm]
  rw [productTo, hrange, List.foldl_append]
  rfl

theorem isProductTo_productTo {n : ℕ} (h : n ≤ maxFactorial) : IsProductTo n (productTo n) := by
  induction n with
  | zero => exact .zero
  | succ n ih =>
      cases n with
      | zero => exact .one
      | succ n =>
          rw [productTo_add_two]
          exact .next (ih (Nat.le_of_succ_le h)) (Double.isInteger_ofNat h)

theorem IsProductTo.eq_productTo {n : ℕ} {v : Float} (hv : IsProductTo n v)
    (h : n ≤ maxFactorial) : v = productTo n := by
  induction hv with
  | zero => rfl
  | one => rfl
  | @next n product factor _ hfactor ih =>
      have hexact := Double.isInteger_ofNat h
      have hne : Double.value factor ≠ 0 := by
        rw [hfactor.2]
        exact_mod_cast Nat.succ_ne_zero (n + 1)
      rw [productTo_add_two, ih (Nat.le_of_succ_le h),
        Double.eq_of_value_eq hfactor.1 hexact.1 hne (hfactor.2.trans hexact.2.symm)]

/-! ## Each kind of double -/

def DomainError.argument : DomainError → Float
  | notFinite value | negative value | notWhole value | tooLarge value => value

section

variable {x : Float}

theorem factorial_of_not_finite (hfinite : Double.isFinite x = false) :
    factorial x = .error (.notFinite x) := by
  rw [factorial, hfinite]
  rfl

theorem factorial_of_neg (hfinite : Double.isFinite x = true) (hneg : Double.value x < 0) :
    factorial x = .error (.negative x) := by
  rw [factorial, hfinite, (Double.isBelowZero_iff hfinite).mpr hneg]
  rfl

theorem factorial_of_nonneg (hfinite : Double.isFinite x = true) (hnonneg : 0 ≤ Double.value x) :
    factorial x =
      if !Double.isWhole x then .error (.notWhole x)
      else match Double.toWord? x with
        | some n => if n ≤ maxFactorial then .ok (productTo n) else .error (.tooLarge x)
        | none => .error (.tooLarge x) := by
  rw [factorial, hfinite, (Double.isBelowZero_eq_false_iff hfinite).mpr hnonneg]
  rfl

theorem factorial_of_not_integer (hfinite : Double.isFinite x = true)
    (hnonneg : 0 ≤ Double.value x) (hinteger : ¬ ∃ n : ℤ, IsInteger x n) :
    factorial x = .error (.notWhole x) := by
  have hwhole : Double.isWhole x = false := by
    rw [← Bool.not_eq_true, Double.isWhole_iff]
    exact hinteger
  rw [factorial_of_nonneg hfinite hnonneg, hwhole]
  rfl

theorem factorial_of_integer {n : ℕ} (h : IsInteger x n) :
    factorial x = if n ≤ 170 then .ok (productTo n) else .error (.tooLarge x) := by
  have hnonneg : 0 ≤ Double.value x := by
    rw [h.2]
    exact_mod_cast Nat.zero_le n
  rw [factorial_of_nonneg h.1 hnonneg, Double.isWhole_iff.mpr ⟨_, h⟩]
  -- a number that has more than 32 bits is above 170 as well
  cases hword : Double.toWord? x with
  | some m =>
      have hm := (Double.toWord?_eq_some_iff.mp hword).2.2
      have hmn : m = n := by exact_mod_cast hm.symm.trans h.2
      rw [hmn]
      rfl
  | none =>
      have hlarge : ¬ n ≤ 170 := by
        intro hle
        have hsome := Double.toWord?_eq_some_iff.mpr ⟨hle.trans (by decide), h⟩
        rw [hword] at hsome
        cases hsome
      rw [if_neg hlarge]
      rfl

/-- The kind that a double is of, with what the factorial makes of it. -/
inductive FactorialOutcome (x : Float) : Except DomainError Float → Prop where
  | notFinite : Double.isFinite x = false → FactorialOutcome x (.error (.notFinite x))
  | negative : Double.isFinite x = true → Double.value x < 0 →
      FactorialOutcome x (.error (.negative x))
  | notWhole : Double.isFinite x = true → 0 ≤ Double.value x → (¬ ∃ n : ℤ, IsInteger x n) →
      FactorialOutcome x (.error (.notWhole x))
  | tooLarge {n : ℤ} : IsInteger x n → 170 < n → FactorialOutcome x (.error (.tooLarge x))
  | product {n : ℕ} {v : Float} : n ≤ 170 → IsInteger x n → IsProductTo n v →
      FactorialOutcome x (.ok v)

theorem factorialOutcome_factorial (x : Float) : FactorialOutcome x (factorial x) := by
  cases hfinite : Double.isFinite x with
  | false =>
      rw [factorial_of_not_finite hfinite]
      exact .notFinite hfinite
  | true =>
      rcases lt_or_ge (Double.value x) 0 with hneg | hnonneg
      · rw [factorial_of_neg hfinite hneg]
        exact .negative hfinite hneg
      · by_cases hinteger : ∃ n : ℤ, IsInteger x n
        · rcases hinteger with ⟨k, hk⟩
          rcases hk.exists_nat hnonneg with ⟨n, hn⟩
          rw [factorial_of_integer hn]
          split
          · rename_i hle
            exact .product hle hn (isProductTo_productTo hle)
          · rename_i hgt
            exact .tooLarge hn (Int.ofNat_lt.mpr (Nat.not_le.mp hgt))
        · rw [factorial_of_not_integer hfinite hnonneg hinteger]
          exact .notWhole hfinite hnonneg hinteger

theorem FactorialOutcome.eq_factorial {result : Except DomainError Float}
    (h : FactorialOutcome x result) : factorial x = result := by
  cases h with
  | notFinite hfinite => exact factorial_of_not_finite hfinite
  | negative hfinite hneg => exact factorial_of_neg hfinite hneg
  | notWhole hfinite hnonneg hinteger => exact factorial_of_not_integer hfinite hnonneg hinteger
  | tooLarge hn hgt =>
      rename_i k
      lift k to ℕ using (by omega) with n
      rw [factorial_of_integer hn, if_neg (Nat.not_le.mpr (Int.ofNat_lt.mp hgt))]
  | product hle hn hproduct =>
      rw [factorial_of_integer hn, if_pos hle, hproduct.eq_productTo hle]

theorem factorial_eq_iff {result : Except DomainError Float} :
    factorial x = result ↔ FactorialOutcome x result := by
  constructor
  · rintro rfl
    exact factorialOutcome_factorial x
  · exact FactorialOutcome.eq_factorial

/-! ## Each outcome -/

theorem factorial_eq_notFinite_iff : factorial x = .error (.notFinite x) ↔
    Double.isNaN x = true ∨ Double.isInfinite x = true := by
  rw [factorial_eq_iff, ← Double.isFinite_eq_false_iff]
  constructor
  · intro h
    cases h with
    | notFinite hfinite => exact hfinite
  · exact .notFinite

theorem factorial_eq_negative_iff : factorial x = .error (.negative x) ↔
    Double.isFinite x = true ∧ Double.value x < 0 := by
  rw [factorial_eq_iff]
  constructor
  · intro h
    cases h with
    | negative hfinite hneg => exact ⟨hfinite, hneg⟩
  · rintro ⟨hfinite, hneg⟩
    exact .negative hfinite hneg

theorem factorial_eq_notWhole_iff : factorial x = .error (.notWhole x) ↔
    Double.isFinite x = true ∧ 0 ≤ Double.value x ∧ ¬ ∃ n : ℤ, IsInteger x n := by
  rw [factorial_eq_iff]
  constructor
  · intro h
    cases h with
    | notWhole hfinite hnonneg hinteger => exact ⟨hfinite, hnonneg, hinteger⟩
  · rintro ⟨hfinite, hnonneg, hinteger⟩
    exact .notWhole hfinite hnonneg hinteger

theorem factorial_eq_tooLarge_iff : factorial x = .error (.tooLarge x) ↔
    ∃ n : ℤ, IsInteger x n ∧ 170 < n := by
  rw [factorial_eq_iff]
  constructor
  · intro h
    cases h with
    | tooLarge hn hgt => exact ⟨_, hn, hgt⟩
  · rintro ⟨n, hn, hgt⟩
    exact .tooLarge hn hgt

theorem argument_of_factorial {error : DomainError} (h : factorial x = .error error) :
    error.argument = x := by
  cases factorial_eq_iff.mp h with
  | notFinite | negative | notWhole | tooLarge => rfl

theorem factorial_eq_ok_iff {v : Float} : factorial x = .ok v ↔
    ∃ n : ℕ, n ≤ 170 ∧ IsInteger x n ∧ IsProductTo n v := by
  rw [factorial_eq_iff]
  constructor
  · intro h
    cases h with
    | product hle hn hproduct => exact ⟨_, hle, hn, hproduct⟩
  · rintro ⟨n, hle, hn, hproduct⟩
    exact .product hle hn hproduct

end

/-! ## All doubles -/

/--
Which doubles the factorial refuses, with which cause, and what its value is for all others.
The number that the product goes up to is the argument itself, exactly.
-/
theorem factorial_partition (x : Float) :
    (factorial x = .error (.notFinite x) ↔
      Double.isNaN x = true ∨ Double.isInfinite x = true) ∧
    (factorial x = .error (.negative x) ↔ Double.isFinite x = true ∧ Double.value x < 0) ∧
    (factorial x = .error (.notWhole x) ↔
      Double.isFinite x = true ∧ 0 ≤ Double.value x ∧ ¬ ∃ n : ℤ, IsInteger x n) ∧
    (factorial x = .error (.tooLarge x) ↔ ∃ n : ℤ, IsInteger x n ∧ 170 < n) ∧
    (∀ error, factorial x = .error error → error.argument = x) ∧
    (∀ v, factorial x = .ok v ↔ ∃ n : ℕ, n ≤ 170 ∧ IsInteger x n ∧ IsProductTo n v) ∧
    ∀ n : ℕ, Double.toWord? x = some n ↔ n ≤ 4294967295 ∧ IsInteger x n :=
  ⟨factorial_eq_notFinite_iff, factorial_eq_negative_iff, factorial_eq_notWhole_iff,
    factorial_eq_tooLarge_iff, fun _ => argument_of_factorial, fun _ => factorial_eq_ok_iff,
    fun _ => Double.toWord?_eq_some_iff⟩

end Calculator
