import Calculator.Double.Nearest

/-!
# Whole numbers among the doubles

Floor, ceiling and their relatives, computed on the exact count of units.  The
sign of the argument is kept, so the floor of `-0` and the ceiling of `-0.5` are
both `-0`.
-/

namespace Calculator
namespace Double

/-! ## Whole and fractional part -/

def wholePart (x : Float) : Nat :=
  units (magnitude x) / unitsPerOne

def hasFraction (x : Float) : Bool :=
  units (magnitude x) % unitsPerOne ≠ 0

def isWhole (x : Float) : Bool :=
  isFinite x && !hasFraction x

/-! ## Rounding in one direction -/

def towardZero (x : Float) : Float :=
  ofMagnitude (isNegative x) (nearest (wholePart x) 1)

def awayFromZero (x : Float) : Float :=
  ofMagnitude (isNegative x) (nearest (wholePart x + 1) 1)

/-- The greatest whole number that is not above `x`; infinities and NaN stay. -/
def floor (x : Float) : Float :=
  if isWhole x || !isFinite x then x
  else if isNegative x then awayFromZero x
  else towardZero x

def ceil (x : Float) : Float :=
  if isWhole x || !isFinite x then x
  else if isNegative x then towardZero x
  else awayFromZero x

def roundHalfUp (x : Float) : Float :=
  let below := floor x
  if 0.5 ≤ x - below then below + 1 else below

/-! ## Words -/

def maxWord : Nat :=
  4294967295

/-- The whole part, or the nearest word if that is none; a NaN gives zero. -/
def saturate (x : Float) : Nat :=
  if isNaN x || isNegative x then 0 else min (wholePart x) maxWord

/-- The saturated whole part, unless one of four guards finds that the double is no word. -/
def toWord? (x : Float) : Option Nat :=
  if !isFinite x || isBelowZero x || decide (Float.ofNat maxWord < x) || hasFraction x then none
  else some (saturate x)

end Double
end Calculator
