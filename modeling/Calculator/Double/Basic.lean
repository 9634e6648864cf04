/-!
# Doubles as exact numbers

A double is a sign and a magnitude.  The bit pattern of the magnitude is a
natural number, and larger magnitudes have larger patterns, so patterns serve as
a scale on which doubles are compared.  A finite magnitude is a whole number of
units of `2 ^ (-1074)`, the smallest positive double; `units` counts them, and
everything that has to be exact is computed on these counts.
-/

namespace Calculator
namespace Double

/-! ## Sign and magnitude -/

def magnitude (x : Float) : Nat :=
  x.toBits.toNat % Nat.pow 2 63

/-- Whether the sign bit is set, as it is in `-0`. -/
def isNegative (x : Float) : Bool :=
  Nat.pow 2 63 ≤ x.toBits.toNat

def ofMagnitude (negative : Bool) (pattern : Nat) : Float :=
  Float.ofBits (UInt64.ofNat (if negative then Nat.pow 2 63 + pattern else pattern))

/-! ## Classes -/

def infinity : Nat :=
  2047 * Nat.pow 2 52

def isNaN (x : Float) : Bool :=
  infinity < magnitude x

def isInfinite (x : Float) : Bool :=
  magnitude x = infinity

def isFinite (x : Float) : Bool :=
  magnitude x < infinity

/-- Whether a number is below zero.  Neither zero is, and a NaN is not. -/
def isBelowZero (x : Float) : Bool :=
  isNegative x && 0 < magnitude x && magnitude x ≤ infinity

/-! ## Order -/

/-- The place of a number on the line, with both zeros at `0`. -/
def rank (x : Float) : Int :=
  if isNegative x then -(magnitude x : Int) else (magnitude x : Int)

/-! ## Exact values -/

/-- The number of units of `2 ^ (-1074)` in a finite magnitude. -/
def units (pattern : Nat) : Nat :=
  let exponent := pattern / Nat.pow 2 52
  let fraction := pattern % Nat.pow 2 52
  if exponent = 0 then fraction else (Nat.pow 2 52 + fraction) * Nat.pow 2 (exponent - 1)

def unitsPerOne : Nat :=
  Nat.pow 2 1074

theorem units_zero : units 0 = 0 := rfl

theorem unitsPerOne_pos : 0 < unitsPerOne := by
  unfold unitsPerOne
  apply Nat.pow_pos
  decide

end Double
end Calculator
