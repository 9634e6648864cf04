import Calculator.Decimal.Basic

/-!
# Decimals of a given length

The exact value of a magnitude rounded to a number of places after the point, or
to a number of significant digits, a half going to the even digit.
-/

namespace Calculator
namespace Decimal

def toPlaces (pattern places : Nat) : Decimal :=
  ⟨Double.roundEven (Double.units pattern * Nat.pow 10 places) Double.unitsPerOne, -places⟩

/--
A positive magnitude with one digit before the point and a given number of places
after it.  When rounding up reaches the next power of ten, the exponent grows by
one and the digits start again at one.
-/
def toSignificant (pattern places : Nat) : Decimal :=
  let leading := leadingExponent (Double.units pattern) Double.unitsPerOne
  let (num, den) := shiftTen (Double.units pattern) Double.unitsPerOne (places - leading)
  let coefficient := Double.roundEven num den
  if coefficient = Nat.pow 10 (places + 1) then ⟨Nat.pow 10 places, leading - places + 1⟩
  else ⟨coefficient, leading - places⟩

end Decimal
end Calculator
