import Calculator.Decimal.Basic

/-!
# Laying out a decimal

A decimal as text, either with all its digits around the point or with one digit
before the point and an exponent.
-/

namespace Calculator
namespace Decimal

/-! ## Positional layout -/

def plain (d : Decimal) : List Char :=
  match d.exponent with
  | .ofNat places => Digits.write (d.coefficient * Nat.pow 10 places)
  | .negSucc places => positional d.coefficient (places + 1)

/-- The digits of `coefficient / 10 ^ places`, where all places behind the point are written. -/
def allPlaces (coefficient places : Nat) : List Char :=
  Digits.write (coefficient / Nat.pow 10 places) ++
    '.' :: Digits.writePlaces places (coefficient % Nat.pow 10 places)

/-! ## Layout with an exponent -/

def firstExponent (d : Decimal) : Int :=
  d.exponent + (Digits.write d.coefficient).length - 1

def pointAfterFirst : List Char → List Char
  | [] => []
  | [c] => [c]
  | c :: cs => c :: '.' :: cs

/-- Digits and an exponent, which has a sign only if it is negative. -/
def withExponent (digits : List Char) (exponent : Int) : List Char :=
  pointAfterFirst digits ++
    'e' :: ((if exponent < 0 then ['-'] else []) ++ Digits.write exponent.natAbs)

def scientific (d : Decimal) : List Char :=
  withExponent (Digits.write d.coefficient) d.firstExponent

/-- The digits of the coefficient up to the last that is not zero. -/
def compact (d : Decimal) : List Char :=
  withExponent (Digits.trimEnd '0' (Digits.write d.coefficient)) d.firstExponent

end Decimal
end Calculator
