import Calculator.Decimal.Layout
import Calculator.Proofs.NumeralSyntax
import Calculator.Proofs.DigitRuns
import Mathlib

/-!
# What a written number denotes

A text denotes a number if it is a numeral, or a minus and a numeral.  No text denotes two
numbers.  A numeral is fixed if it has no exponent and no superfluous zero, and scientific if
it has one digit before the point and an exponent with a sign.

The two ways to lay out a decimal give the texts of `Decimal.positionalNumeral` and
`Decimal.scientificNumeral`.  These are of the two forms, and they lose nothing, which is what
the statements on their texts, forms and values say.
-/

namespace Calculator

def Decimal.toRat (d : Decimal) : ℚ :=
  d.coefficient * (10 : ℚ) ^ d.exponent

/-- A text and the number that it stands for: a numeral, or a minus and a numeral. -/
inductive Denotes : List Char → ℚ → Prop where
  | numeral {n : Numeral} : n.WellFormed → Denotes n.text n.value.toRat
  | minus {n : Numeral} : n.WellFormed → Denotes ('-' :: n.text) (-n.value.toRat)

theorem Numeral.eq_of_text_eq {n m : Numeral} (hn : n.WellFormed) (hm : m.WellFormed)
    (htext : n.text = m.text) : n = m := by
  have hscan := scan?_append_of_stops hn stops_nil
  rw [htext, scan?_append_of_stops hm stops_nil] at hscan
  cases hscan
  rfl

theorem Numeral.text_ne_minus_cons {n : Numeral} (hn : n.WellFormed) (cs : List Char) :
    n.text ≠ '-' :: cs := by
  rcases exists_text_eq_cons hn with ⟨c, rest, htext, hc⟩
  rw [htext]
  intro h
  cases h
  exact absurd hc (by decide)

theorem Denotes.unique {text : List Char} {p q : ℚ} (hp : Denotes text p) (hq : Denotes text q) :
    p = q := by
  cases hp with
  | numeral hn =>
      rename_i n
      generalize htext : n.text = text at hq
      cases hq with
      | numeral hm => rw [Numeral.eq_of_text_eq hn hm htext]
      | minus hm => exact absurd htext (Numeral.text_ne_minus_cons hn _)
  | minus hn =>
      rename_i n
      generalize htext : '-' :: n.text = text at hq
      cases hq with
      | numeral hm => exact absurd htext.symm (Numeral.text_ne_minus_cons hm _)
      | minus hm =>
          have htail := (List.cons.inj htext).2
          rw [Numeral.eq_of_text_eq hn hm htail]

/-! ## Two forms of numerals -/

namespace Numeral

/-- Digits without superfluous zeros and without an exponent. -/
structure IsFixed (places : Nat) (n : Numeral) : Prop where
  whole_ne_nil : n.whole ≠ []
  whole : ∀ c ∈ n.whole, c.isDigit = true
  leading : n.whole.head? = some '0' → n.whole = ['0']
  fraction : ∀ digits ∈ n.fraction, digits ≠ [] ∧ digits.length ≤ places ∧
    digits.getLast? ≠ some '0' ∧ ∀ c ∈ digits, c.isDigit = true
  exponent : n.exponent = none

/-- One digit before the point, a given number of them behind it, and an exponent with a sign. -/
structure IsScientific (places : Nat) (n : Numeral) : Prop where
  whole : ∃ c, n.whole = [c] ∧ c ≠ '0' ∧ c.isDigit = true
  fraction : ∃ digits, n.fraction = some digits ∧ digits.length = places ∧
    ∀ c ∈ digits, c.isDigit = true
  exponent : ∃ sign digits, n.exponent = some ⟨'e', some sign, digits⟩ ∧
    (sign = '+' ∨ sign = '-') ∧ digits ≠ [] ∧ digits.head? ≠ some '0' ∧
    ∀ c ∈ digits, c.isDigit = true

theorem IsFixed.wellFormed {places : Nat} {n : Numeral} (h : n.IsFixed places) : n.WellFormed := by
  constructor
  · exact h.whole
  · intro digits hdigits
    exact (h.fraction digits hdigits).2.2.2
  · exact Or.inl h.whole_ne_nil
  · intro e he
    rw [h.exponent] at he
    cases he

theorem IsScientific.wellFormed {places : Nat} {n : Numeral} (h : n.IsScientific places) :
    n.WellFormed := by
  rcases h.whole with ⟨first, hwhole, _, hfirst⟩
  rcases h.fraction with ⟨digits, hfraction, _, hdigits⟩
  rcases h.exponent with ⟨sign, power, hexponent, hsign, hne, _, hpower⟩
  constructor
  · rw [hwhole]
    simpa using hfirst
  · rw [hfraction]
    simpa using hdigits
  · left
    rw [hwhole]
    exact List.cons_ne_nil _ _
  · intro e he
    rw [hexponent] at he
    cases he
    exact ⟨Or.inl rfl, by simpa using hsign, hne, hpower⟩

end Numeral

/-! ## Digits in their places -/

namespace Decimal

def positionalFraction (coefficient places : Nat) : List Char :=
  Digits.trimEnd '0' (Digits.writePlaces places (coefficient % 10 ^ places))

def positionalNumeral (coefficient places : Nat) : Numeral where
  whole := Digits.write (coefficient / 10 ^ places)
  fraction :=
    if (positionalFraction coefficient places).isEmpty then none
    else some (positionalFraction coefficient places)
  exponent := none

section

variable (coefficient places : Nat)

theorem text_positionalNumeral :
    (positionalNumeral coefficient places).text = positional coefficient places := by
  show Digits.write _ ++ (Option.elim (if _ then none else some _) [] ('.' :: ·) ++ []) =
    if (positionalFraction coefficient places).isEmpty then Digits.write _ else
      Digits.write _ ++ '.' :: positionalFraction coefficient places
  split
  · exact List.append_nil _
  · rw [List.append_nil]
    rfl

theorem getD_fraction_positionalNumeral :
    (positionalNumeral coefficient places).fraction.getD [] =
      positionalFraction coefficient places := by
  unfold positionalNumeral
  dsimp only
  split
  · rename_i hnil
    exact (List.isEmpty_iff.mp hnil).symm
  · rfl

theorem exists_zeros_positionalFraction :
    ∃ zeros, (positionalFraction coefficient places).length + zeros = places ∧
      Digits.value (positionalFraction coefficient places) * 10 ^ zeros =
        coefficient % 10 ^ places ∧
      ∀ c ∈ positionalFraction coefficient places, c.isDigit = true := by
  have hvalue := Digits.value_writePlaces places (coefficient % 10 ^ places)
  have hlength := Digits.length_writePlaces places (coefficient % 10 ^ places)
  have hdigits := Digits.isDigit_of_mem_writePlaces places (coefficient % 10 ^ places)
  rcases Digits.trimEnd_append_marks '0'
    (Digits.writePlaces places (coefficient % 10 ^ places)) with ⟨zeros, hzeros⟩
  change positionalFraction coefficient places ++ List.replicate zeros '0' = _ at hzeros
  rw [← hzeros, Digits.value_append, List.length_replicate, Digits.value_replicate_zero,
    Nat.add_zero, Nat.pow_eq, Nat.mod_mod] at hvalue
  rw [← hzeros, List.length_append, List.length_replicate] at hlength
  refine ⟨zeros, hlength, hvalue, ?_⟩
  intro c hc
  apply hdigits
  rw [← hzeros]
  exact List.mem_append_left _ hc

theorem isFixed_positionalNumeral : (positionalNumeral coefficient places).IsFixed places := by
  rcases exists_zeros_positionalFraction coefficient places with ⟨zeros, hlength, _, hdigits⟩
  constructor
  · exact Digits.write_ne_nil _
  · exact Digits.isDigit_of_mem_write _
  · intro hzero
    rcases Nat.eq_zero_or_pos (coefficient / 10 ^ places) with hnone | hpos
    · show Digits.write (coefficient / 10 ^ places) = ['0']
      rw [hnone, Digits.write_zero]
    · exact absurd hzero (Digits.head?_write hpos)
  · intro digits hmem
    unfold positionalNumeral at hmem
    dsimp only at hmem
    split at hmem
    · cases hmem
    · rename_i hne
      cases hmem
      rw [List.isEmpty_iff] at hne
      exact ⟨hne, Nat.le.intro hlength, Digits.getLast?_trimEnd _ _, hdigits⟩
  · rfl

/-- With its zeros taken off, and then the point if nothing is behind it, all is in its place. -/
theorem trimEnd_allPlaces (sign : List Char) :
    Digits.trimEnd '.' (Digits.trimEnd '0' (sign ++ allPlaces coefficient places)) =
      sign ++ (positionalNumeral coefficient places).text := by
  have hpoint : Digits.trimEnd '0'
      ('.' :: Digits.writePlaces places (coefficient % Nat.pow 10 places)) =
        '.' :: positionalFraction coefficient places :=
    Digits.trimEnd_cons_of_ne (by decide) _
  have hne : Digits.trimEnd '0'
      ('.' :: Digits.writePlaces places (coefficient % Nat.pow 10 places)) ≠ [] := by
    rw [hpoint]
    exact List.cons_ne_nil _ _
  have hwhole : Digits.write (coefficient / Nat.pow 10 places) ≠ [] := Digits.write_ne_nil _
  rw [allPlaces, ← List.append_assoc, Digits.trimEnd_append _ hne, hpoint,
    text_positionalNumeral, positional]
  rcases exists_zeros_positionalFraction coefficient places with ⟨_, _, _, hdigits⟩
  show _ = sign ++ if (positionalFraction coefficient places).isEmpty then _ else
    _ ++ '.' :: positionalFraction coefficient places
  cases hfraction : positionalFraction coefficient places with
  | nil =>
      rw [Digits.trimEnd_concat]
      apply Digits.trimEnd_of_getLast?
      rw [List.getLast?_append_of_ne_nil _ hwhole]
      intro hlast
      have hdigit := Digits.isDigit_of_mem_write _ _ (List.mem_of_getLast? hlast)
      exact absurd hdigit (by decide)
  | cons d ds =>
      rw [List.append_assoc]
      apply Digits.trimEnd_of_getLast?
      rw [← List.append_assoc, List.append_cons,
        List.getLast?_append_of_ne_nil _ (List.cons_ne_nil d ds)]
      intro hlast
      rw [hfraction] at hdigits
      exact absurd (hdigits _ (List.mem_of_getLast? hlast)) (by decide)

theorem toRat_positionalNumeral :
    (positionalNumeral coefficient places).value.toRat = coefficient / 10 ^ places := by
  rcases exists_zeros_positionalFraction coefficient places with ⟨zeros, hlength, hfraction, _⟩
  have hvalue : (positionalNumeral coefficient places).value =
      ⟨Digits.value (Digits.write (coefficient / 10 ^ places) ++
        positionalFraction coefficient places),
        0 - (positionalFraction coefficient places).length⟩ := by
    rw [Numeral.value, getD_fraction_positionalNumeral]
    rfl
  have hdigits : Digits.value (Digits.write (coefficient / 10 ^ places) ++
      positionalFraction coefficient places) * 10 ^ zeros = coefficient := by
    rw [Digits.value_append, Digits.value_write, Nat.add_mul, Nat.mul_assoc, ← Nat.pow_add,
      hlength, hfraction, Nat.mul_comm, Nat.div_add_mod]
  rw [hvalue, toRat]
  generalize positionalFraction coefficient places = fraction at hlength hdigits ⊢
  generalize Digits.value _ = digits at hdigits ⊢
  rw [← hdigits, ← hlength, zero_sub, zpow_neg, zpow_natCast]
  push_cast
  rw [pow_add]
  field_simp

end

/-! ## One digit before the point -/

def exponentSign (n : ℤ) : Char :=
  if n < 0 then '-' else '+'

def scientificNumeral (d : Decimal) : Numeral where
  whole := (Digits.write d.coefficient).take 1
  fraction := some (Digits.write d.coefficient).tail
  exponent := some ⟨'e', some (exponentSign d.firstExponent),
    Digits.write d.firstExponent.natAbs⟩

theorem value_exponentSign (n : ℤ) :
    Exponent.value ⟨'e', some (exponentSign n), Digits.write n.natAbs⟩ = n := by
  unfold Exponent.value exponentSign
  dsimp only
  rw [Digits.value_write]
  by_cases hneg : n < 0
  · rw [if_pos hneg, if_pos rfl]
    omega
  · rw [if_neg hneg, if_neg (by decide)]
    omega

section

variable {d : Decimal} {places : Nat}

theorem text_scientificNumeral (h : 1 < (Digits.write d.coefficient).length) :
    (scientificNumeral d).text = pointAfterFirst (Digits.write d.coefficient) ++
      'e' :: exponentSign d.firstExponent :: Digits.write d.firstExponent.natAbs := by
  unfold scientificNumeral
  generalize Digits.write d.coefficient = run at h
  match run, h with
  | first :: second :: rest, _ => rfl

theorem firstExponent_eq (h : (Digits.write d.coefficient).length = places + 1) :
    d.firstExponent = d.exponent + places := by
  rw [firstExponent, h, Nat.cast_succ]
  ring

theorem isScientific_scientificNumeral (hpos : 0 < d.coefficient)
    (h : (Digits.write d.coefficient).length = places + 1) (hexponent : d.exponent + places ≠ 0) :
    (scientificNumeral d).IsScientific places := by
  have hdigits := Digits.isDigit_of_mem_write d.coefficient
  have hhead := Digits.head?_write hpos
  rw [← firstExponent_eq h] at hexponent
  unfold scientificNumeral
  generalize Digits.write d.coefficient = run at h hdigits hhead
  match run, h with
  | first :: rest, h =>
      rw [List.forall_mem_cons] at hdigits
      constructor
      · refine ⟨first, rfl, ?_, hdigits.1⟩
        rintro rfl
        exact hhead rfl
      · exact ⟨rest, rfl, Nat.succ.inj h, hdigits.2⟩
      · refine ⟨_, _, rfl, ?_, Digits.write_ne_nil _, ?_, Digits.isDigit_of_mem_write _⟩
        · unfold exponentSign
          split
          · exact Or.inr rfl
          · exact Or.inl rfl
        · exact Digits.head?_write (Int.natAbs_pos.mpr hexponent)

theorem value_scientificNumeral (h : (Digits.write d.coefficient).length = places + 1) :
    (scientificNumeral d).value = d := by
  have hvalue : (scientificNumeral d).value =
      ⟨Digits.value ((Digits.write d.coefficient).take 1 ++ (Digits.write d.coefficient).tail),
        d.firstExponent - (Digits.write d.coefficient).tail.length⟩ := by
    rw [Numeral.value]
    unfold scientificNumeral
    dsimp only [Option.elim, Option.getD]
    rw [value_exponentSign]
  rw [hvalue, ← List.drop_one, List.take_append_drop, Digits.value_write, List.length_drop, h,
    firstExponent_eq h, Nat.add_sub_cancel, add_sub_cancel_right]

end

end Decimal
end Calculator
