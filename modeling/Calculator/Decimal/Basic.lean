import Calculator.Digits
import Calculator.Double.Nearest

/-!
# Decimal numbers

A decimal is a whole coefficient times a power of ten.  This module takes a
quotient of natural numbers to the decimal grid and back: `shiftTen` multiplies
it by a power of ten, `leadingExponent` finds the place of its first digit, and
`Decimal.pattern` rounds a decimal to the nearest double.
-/

namespace Calculator

/-- The number `coefficient * 10 ^ exponent`. -/
structure Decimal where
  coefficient : Nat
  exponent : Int
  deriving Repr, DecidableEq

namespace Decimal

/-! ## Powers of ten -/

/-- Numerator and denominator of a quotient times a power of ten. -/
def shiftTen (num den : Nat) : Int → Nat × Nat
  | .ofNat places => (num * Nat.pow 10 places, den)
  | .negSucc places => (num, den * Nat.pow 10 (places + 1))

/-- How often a quotient has to be multiplied by ten to reach one. -/
def placesBelowOne (num den : Nat) : Nat :=
  if num = 0 ∨ den ≤ num then 0 else placesBelowOne (num * 10) den + 1
termination_by den - num
decreasing_by omega

/-- The exponent `e` with `10 ^ e ≤ num / den < 10 ^ (e + 1)`, for a positive quotient. -/
def leadingExponent (num den : Nat) : Int :=
  if den ≤ num then ((Digits.write (num / den)).length : Int) - 1
  else -(placesBelowOne num den : Int)

/-! ## Rounding to a double -/

def ratio (d : Decimal) : Nat × Nat :=
  shiftTen d.coefficient 1 d.exponent

/--
The magnitude pattern nearest to a decimal.  From `10 ^ 309` on that is infinity,
and below `10 ^ (-324)` it is zero, so powers of ten beyond these are never formed.
-/
def pattern (d : Decimal) : Nat :=
  if d.coefficient = 0 then 0
  else if 309 ≤ d.exponent then Double.infinity
  else if d.exponent + d.coefficient.log2 + 1 ≤ -324 then 0
  else Double.nearest d.ratio.1 d.ratio.2

def toDouble (d : Decimal) : Float :=
  Double.ofMagnitude false d.pattern

/-! ## Positional digits -/

/-- The digits of `coefficient / 10 ^ places`, with no zeros at the end of the fraction. -/
def positional (coefficient places : Nat) : List Char :=
  let fraction :=
    Digits.trimEnd '0' (Digits.writePlaces places (coefficient % Nat.pow 10 places))
  let whole := Digits.write (coefficient / Nat.pow 10 places)
  if fraction.isEmpty then whole else whole ++ '.' :: fraction

end Decimal
end Calculator
