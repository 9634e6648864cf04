import Calculator.Double.Whole
import Calculator.Failure

/-!
# Factorial

The factorial of the whole numbers up to 170, as a product of doubles from the
left.  Each way of leaving the domain has its own cause, and the causes are tried
in a fixed order.
-/

namespace Calculator

/-- The product of the doubles `2, 3, …, n`, multiplied from the left and starting with `1`. -/
def productTo (n : Nat) : Float :=
  (List.range' 2 (n - 1)).foldl (fun product k => product * Float.ofNat k) 1

def factorial (x : Float) : Except DomainError Float :=
  if !Double.isFinite x then .error (.notFinite x)
  else if Double.isBelowZero x then .error (.negative x)
  else if !Double.isWhole x then .error (.notWhole x)
  else
    match Double.toWord? x with
    | some n => if n ≤ maxFactorial then .ok (productTo n) else .error (.tooLarge x)
    | none => .error (.tooLarge x)

end Calculator
