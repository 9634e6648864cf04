import Calculator.AngleUnit

/-!
# Constants

The names that stand for a fixed number.
-/

namespace Calculator

inductive Constant where
  | pi
  | e
  deriving Repr, DecidableEq

namespace Constant

def named? : String → Option Constant
  | "pi" => some pi
  | "e" => some e
  | _ => none

def value : Constant → Float
  | pi => AngleUnit.pi
  | e => 2.718281828459045

end Constant
end Calculator
