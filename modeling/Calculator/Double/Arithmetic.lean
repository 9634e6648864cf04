import Calculator.Double.Nearest

/-!
# Exact operations on doubles

The remainder is exact on the counts of units.  The cube root is the integer
cube root of a count scaled far enough for every rounding decision to be visible
in it.  The extrema compare ranks and pass over NaN.
-/

namespace Calculator
namespace Double

def undefinedValue : Float :=
  0 / 0

/-! ## Remainder -/

/-- The remainder of the division that truncates, with the sign of the dividend. -/
def remainder (x y : Float) : Float :=
  if isNaN x || isNaN y || isInfinite x || magnitude y = 0 then undefinedValue
  else if isInfinite y then x
  else ofMagnitude (isNegative x)
    (nearest (units (magnitude x) % units (magnitude y)) unitsPerOne)

/-! ## Cube root -/

/--
The largest number that agrees with `root` above its last `bits` bits and whose
cube is at most `n`.
-/
def cubeRootFrom (n : Nat) : Nat → Nat → Nat
  | 0, root => root
  | bits + 1, root =>
      let next := root + Nat.pow 2 bits
      if Nat.pow next 3 ≤ n then cubeRootFrom n bits next else cubeRootFrom n bits root

def wholeCubeRoot (n : Nat) : Nat :=
  cubeRootFrom n (n.log2 / 3 + 1) 0

/--
The pattern of the cube root of a magnitude.  The count of units is scaled by
`2 ^ 192`, so its root counts units of `2 ^ (-422)` and has at least 64 bits; a
root that is not whole is represented by the half above, which lies on the same
side of every number with fewer bits.
-/
def cubeRootPattern (pattern : Nat) : Nat :=
  let scaled := units pattern * Nat.pow 2 192
  let root := wholeCubeRoot scaled
  let inexact := if Nat.pow root 3 = scaled then 0 else 1
  nearest (2 * root + inexact) (Nat.pow 2 423)

/--
The cube root; zeros, infinities and NaN stay.  Platform libraries leave the precision of a
cube root unspecified, and to round it correctly is a choice made here.
-/
def cubeRoot (x : Float) : Float :=
  if !isFinite x || magnitude x = 0 then x
  else ofMagnitude (isNegative x) (cubeRootPattern (magnitude x))

/-! ## Extrema -/

/-- The lesser of two numbers, where a NaN on the right does not count. -/
def lesser (x y : Float) : Float :=
  if isNaN y then x else if rank y < rank x then y else x

def greater (x y : Float) : Float :=
  if isNaN y then x else if rank x < rank y then y else x

/-- The least number of a list, or infinity if there is none. -/
def least (xs : List Float) : Float :=
  xs.foldl lesser (ofMagnitude false infinity)

def greatest (xs : List Float) : Float :=
  xs.foldl greater (ofMagnitude true infinity)

end Double
end Calculator
