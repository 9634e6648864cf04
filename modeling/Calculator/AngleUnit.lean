/-!
# Angle units

The unit in which the trigonometric functions take and give angles.  A conversion
multiplies before it divides, which fixes the rounding of both steps.
-/

namespace Calculator

inductive AngleUnit where
  | radians
  | degrees
  deriving Repr, DecidableEq

namespace AngleUnit

def pi : Float :=
  3.141592653589793

/-! ## Conversion -/

def toRadians (unit : AngleUnit) (angle : Float) : Float :=
  match unit with
  | radians => angle
  | degrees => angle * pi / 180

def ofRadians (unit : AngleUnit) (angle : Float) : Float :=
  match unit with
  | radians => angle
  | degrees => angle * 180 / pi

/-! ## Names -/

def label : AngleUnit → String
  | radians => "RAD"
  | degrees => "DEG"

/-- The unit that a name stands for in any case of its ASCII letters, or what is wrong with it. -/
def read (text : String) : Except String AngleUnit :=
  match String.ofList (text.toList.map Char.toLower) with
  | "rad" | "radians" => .ok radians
  | "deg" | "degrees" => .ok degrees
  | other => .error s!"unknown angle mode '{other}'"

end AngleUnit
end Calculator
