import Calculator.AngleUnit
import Calculator.Random

/-!
# Environments

What an evaluation depends on besides the expression: the unit of angles, the
previous answer, and the random numbers that it draws.
-/

namespace Calculator

structure Environment where
  unit : AngleUnit := .radians
  answer : Float := 0
  draws : Draws := default

/-- The value of a name that is neither a constant nor called. -/
def Environment.lookup? (environment : Environment) (name : String) : Option Float :=
  if name = "ans" then some environment.answer else none

end Calculator
