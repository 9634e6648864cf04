import Calculator.NumberText
import Calculator.Proofs.NearestDouble
import Calculator.Proofs.ResultText

/-!
# The exact text of a number

The text of a double in programs and messages has few digits, but enough of them for the
double to be the nearest one to the number that they denote.  So the text is read as the
double that it was written for, and two doubles share a text only if both are NaN.

The main statements are `Decimal.pattern_shortest` and `NumberText.read?_exactText`.
-/

namespace Calculator

/-! ## One nearest pattern -/

namespace Double

/-- Two patterns at one distance from a number are even, so another one lies between them. -/
theorem IsNearestPattern.le {count : ℚ} {first second : Nat}
    (hfirst : IsNearestPattern count first) (hsecond : IsNearestPattern count second) :
    second ≤ first := by
  by_contra hlt
  rw [Nat.not_le] at hlt
  have hdistance : |count - units first| = |count - units second| :=
    le_antisymm (hfirst second).1 (hsecond first).1
  have hbetween : first + 1 < second := by
    rcases (hfirst second).2 hdistance hlt.ne' with ⟨k, hk⟩
    rcases (hsecond first).2 hdistance.symm hlt.ne with ⟨l, hl⟩
    omega
  have hlower := cast_units_lt (Nat.lt_succ_self first)
  have hupper := cast_units_lt hbetween
  have hmiddle : 2 * count = units first + units second := by
    rcases abs_eq_abs.mp hdistance with heq | heq
    · linarith
    · linarith
  -- the pattern behind the first one would be nearer than both
  have hnearest := (hfirst (first + 1)).1
  rw [abs_of_nonneg (by linarith)] at hnearest
  rcases abs_cases (count - units (first + 1)) with ⟨habs, _⟩ | ⟨habs, _⟩
  · linarith
  · linarith

theorem IsNearestPattern.unique {count : ℚ} {first second : Nat}
    (hfirst : IsNearestPattern count first) (hsecond : IsNearestPattern count second) :
    first = second :=
  Nat.le_antisymm (hsecond.le hfirst) (hfirst.le hsecond)

theorem isNearestPattern_units (pattern : Nat) : IsNearestPattern (units pattern) pattern := by
  intro other
  rw [sub_self, abs_zero]
  refine ⟨abs_nonneg _, ?_⟩
  intro hzero hne
  have heq := sub_eq_zero.mp (abs_eq_zero.mp hzero.symm)
  rw [Nat.cast_inj, strictMono_units.injective.eq_iff] at heq
  exact absurd heq.symm hne

end Double

/-! ## Decimals that read back -/

namespace Decimal

open Double (size units unitsPerOne infinity)

theorem pattern_eq_of_toRat_eq {d e : Decimal} (h : d.toRat = e.toRat) : d.pattern = e.pattern := by
  rcases exists_isNearestPattern_pattern d with ⟨p, hp, hd⟩
  rcases exists_isNearestPattern_pattern e with ⟨q, hq, he⟩
  rw [h] at hp
  rw [hd, he, hp.unique hq]

theorem pattern_of_toRat_eq_size {d : Decimal} {pattern : Nat} (hle : pattern ≤ infinity)
    (h : d.toRat = size pattern) : d.pattern = pattern := by
  rcases exists_isNearestPattern_pattern d with ⟨p, hp, hd⟩
  rw [h, size, div_mul_cancel₀ _ Double.unitsPerOne_cast_pos.ne'] at hp
  rw [hd, hp.unique (Double.isNearestPattern_units pattern), Nat.min_eq_right hle]

theorem toRat_allDigits (pattern : Nat) : (allDigits pattern).toRat = size pattern := by
  have hexponent : (-1074 : ℤ) = -((1074 : ℕ) : ℤ) := rfl
  unfold toRat allDigits size unitsPerOne
  rw [hexponent]
  generalize 1074 = n
  have hten : (10 : ℚ) ^ n = 5 ^ n * 2 ^ n := by
    rw [← mul_pow]
    norm_num
  rw [zpow_neg, zpow_natCast, hten, Nat.pow_eq, Nat.pow_eq]
  push_cast
  field_simp

theorem pattern_allDigits {pattern : Nat} (h : pattern ≤ infinity) :
    (allDigits pattern).pattern = pattern :=
  pattern_of_toRat_eq_size h (toRat_allDigits pattern)

theorem pattern_shortest {pattern : Nat} (h : pattern ≤ infinity) :
    (shortest pattern).pattern = pattern := by
  unfold shortest
  split
  · rename_i hzero
    rw [hzero]
    rfl
  · dsimp only
    generalize leadingExponent (units pattern) unitsPerOne = leading
    cases hfound : (List.range 17).findSome? fun (further : Nat) =>
        neighbour? pattern (leading - further) with
    | none => exact pattern_allDigits h
    | some d =>
        rcases List.exists_of_findSome?_eq_some hfound with ⟨further, _, hneighbour⟩
        exact of_decide_eq_true (readsBack_of_neighbour? hneighbour)

/-! ## Digits in their places -/

theorem positional_zero (coefficient : Nat) :
    positional coefficient 0 = Digits.write coefficient := by
  have hwhole : coefficient / Nat.pow 10 0 = coefficient := Nat.div_one coefficient
  rw [positional, hwhole]
  rfl

theorem exists_numeral_plain (d : Decimal) :
    ∃ n : Numeral, n.WellFormed ∧ n.text = d.plain ∧ n.value.toRat = d.toRat := by
  rcases d with ⟨coefficient, exponent⟩
  cases exponent with
  | ofNat places =>
      refine ⟨positionalNumeral (coefficient * 10 ^ places) 0,
        (isFixed_positionalNumeral _ _).wellFormed, ?_, ?_⟩
      · rw [text_positionalNumeral, positional_zero]
        rfl
      · rw [toRat_positionalNumeral, toRat, pow_zero, div_one]
        push_cast
        rfl
  | negSucc places =>
      refine ⟨positionalNumeral coefficient (places + 1),
        (isFixed_positionalNumeral _ _).wellFormed, text_positionalNumeral _ _, ?_⟩
      rw [toRat_positionalNumeral, toRat, zpow_negSucc, div_eq_mul_inv]

end Decimal

/-! ## Reading a text with a sign -/

theorem Numeral.read?_signed {n : Numeral} (h : n.WellFormed) (negative : Bool) :
    read? (String.ofList ((if negative then ['-'] else []) ++ n.text)) =
      some (Double.ofMagnitude negative n.value.pattern) := by
  cases negative with
  | false => exact read?_text h
  | true =>
      have hscan := scan?_append_of_stops h stops_nil
      rw [List.append_nil] at hscan
      have hsplit : Exponent.splitSign ('-' :: n.text) = (some '-', n.text) := rfl
      rw [read?, String.toList_ofList, if_pos rfl, List.singleton_append, hsplit]
      simp only [named?_text h, hscan]
      rfl

theorem Numeral.read?_inf (negative : Bool) :
    read? (String.ofList ((if negative then ['-'] else []) ++ ['i', 'n', 'f'])) =
      some (Double.ofMagnitude negative Double.infinity) := by
  cases negative with
  | false => rfl
  | true => rfl

namespace NumberText

/-- The two forms of the exact text, behind its sign. -/
inductive ExactBody (pattern : Nat) : List Char → Prop where
  | infinite : pattern = Double.infinity → ExactBody pattern ['i', 'n', 'f']
  | numeral {n : Numeral} : n.WellFormed → n.value.pattern = pattern → ExactBody pattern n.text

variable {x y : Float}

theorem exists_body_exactText (h : Double.isNaN x = false) :
    ∃ body, ExactBody (Double.magnitude x) body ∧
      (exactText x).toList = (if Double.isNegative x then ['-'] else []) ++ body := by
  rw [exactText, h, if_neg Bool.false_ne_true]
  split
  · rename_i hinfinite
    refine ⟨_, .infinite (of_decide_eq_true hinfinite), ?_⟩
    rw [String.toList_ofList, signed_eq]
  · rcases Decimal.exists_numeral_plain (Decimal.shortest (Double.magnitude x)) with
      ⟨n, hwellFormed, htext, hvalue⟩
    have hpattern := Decimal.pattern_shortest (Double.magnitude_le_infinity h)
    refine ⟨n.text, .numeral hwellFormed ?_, ?_⟩
    · rw [Decimal.pattern_eq_of_toRat_eq hvalue, hpattern]
    · rw [htext, String.toList_ofList, signed_eq]

theorem read?_exactText (h : Double.isNaN x = false) : Numeral.read? (exactText x) = some x := by
  rcases exists_body_exactText h with ⟨body, hbody, htext⟩
  have hself := Double.ofMagnitude_eq_self h
  rw [← String.ofList_toList (s := exactText x), htext]
  cases hbody with
  | infinite hinfinite => rw [Numeral.read?_inf, ← hinfinite, hself]
  | numeral hwellFormed hpattern => rw [Numeral.read?_signed hwellFormed, hpattern, hself]

theorem exactText_inj (hx : Double.isNaN x = false) (hy : Double.isNaN y = false)
    (h : exactText x = exactText y) : x = y := by
  have hread := read?_exactText hx
  rw [h, read?_exactText hy] at hread
  exact (Option.some.inj hread).symm

example : Numeral.read? (exactText (-1.5e-7)) = some (-1.5e-7) := by decide +kernel

/-! ## Characters of the text -/

theorem exists_exactText_eq_cons (h : Double.isNaN x = false) :
    ∃ c cs, (exactText x).toList = (if Double.isNegative x then ['-'] else []) ++ c :: cs ∧
      (c.isDigit = true ∨ c ∈ ['.', 'i']) := by
  rcases exists_body_exactText h with ⟨body, hbody, htext⟩
  cases hbody with
  | infinite _ => exact ⟨'i', ['n', 'f'], htext, by simp⟩
  | numeral hwellFormed _ =>
      rcases Numeral.exists_text_eq_cons hwellFormed with ⟨c, cs, hcons, hc⟩
      rw [hcons] at htext
      exact ⟨c, cs, htext, hc.imp_right (by simp [·])⟩

theorem mem_exactText (h : Double.isNaN x = false) {c : Char} (hc : c ∈ (exactText x).toList) :
    c.isDigit = true ∨ c ∈ ['.', 'e', 'E', '+', '-', 'i', 'n', 'f'] := by
  rcases exists_body_exactText h with ⟨body, hbody, htext⟩
  rw [htext, List.mem_append] at hc
  rcases hc with hsign | hc
  · right
    split at hsign
    · simp_all
    · cases hsign
  · cases hbody with
    | infinite _ =>
        right
        simp_all
    | numeral hwellFormed _ =>
        rcases Numeral.mem_text hwellFormed hc with hdigit | hmark
        · exact Or.inl hdigit
        · right
          simp only [List.mem_cons, List.not_mem_nil, or_false] at hmark ⊢
          tauto

end NumberText
end Calculator
