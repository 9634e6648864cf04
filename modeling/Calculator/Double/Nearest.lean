import Calculator.Double.Basic

/-!
# Rounding to nearest

Every rounding in the calculator is a quotient of natural numbers rounded to a
whole number, a half going to the even neighbour.  `nearest` applies it on the
grid of the doubles: the quotient is counted in units, the count is rounded to
53 significant bits, and the pattern is read off.  A significand that rounds up
to the next power of two carries into the exponent field by itself, so that no
case is needed for it.
-/

namespace Calculator
namespace Double

/-- The quotient rounded to a whole number, a half going to the even one. -/
def roundEven (num den : Nat) : Nat :=
  let quotient := num / den
  let twice := 2 * (num % den)
  if twice < den then quotient
  else if den < twice then quotient + 1
  else quotient + quotient % 2

/-- The magnitude pattern nearest to a quotient, infinity included. -/
def nearest (num den : Nat) : Nat :=
  let scaled := num * unitsPerOne
  let shift := (scaled / den).log2 - 52
  min infinity (shift * Nat.pow 2 52 + roundEven scaled (den * Nat.pow 2 shift))

end Double
end Calculator
