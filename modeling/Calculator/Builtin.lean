import Calculator.AngleUnit
import Calculator.Double.Arithmetic
import Calculator.Double.Whole
import Calculator.Failure

/-!
# Functions

The functions that an expression can call: their names, how many arguments they
take, and their values.  A function has a value exactly for the argument counts
that its arity accepts.
-/

namespace Calculator

inductive Builtin where
  | sin | cos | tan | asin | acos | atan
  | sqrt | cbrt
  | ln | log | exp | pow
  | abs | floor | ceil | round
  | min | max
  | rand
  | percent
  deriving Repr, DecidableEq

namespace Builtin

/-! ## Names -/

def all : List Builtin :=
  [sin, cos, tan, asin, acos, atan, sqrt, cbrt, ln, log, exp, pow, abs, floor, ceil, round,
    min, max, rand, percent]

def name : Builtin → String
  | sin => "sin"
  | cos => "cos"
  | tan => "tan"
  | asin => "asin"
  | acos => "acos"
  | atan => "atan"
  | sqrt => "sqrt"
  | cbrt => "cbrt"
  | ln => "ln"
  | log => "log"
  | exp => "exp"
  | pow => "pow"
  | abs => "abs"
  | floor => "floor"
  | ceil => "ceil"
  | round => "round"
  | min => "min"
  | max => "max"
  | rand => "rand"
  | percent => "percent"

def named? (name : String) : Option Builtin :=
  all.find? (·.name = name)

theorem name_of_named? {name : String} {function : Builtin}
    (h : named? name = some function) : function.name = name := by
  have hfound := List.find?_some h
  simpa using hfound

/-! ## Values -/

def arity : Builtin → Arity
  | pow => .exactly 2
  | min | max => .atLeast 1
  | rand => .exactly 0
  | sin | cos | tan | asin | acos | atan | sqrt | cbrt | ln | log | exp | abs | floor | ceil
  | round | percent => .exactly 1

/--
The value for a list of arguments, with the unit of angles and the random number
that is drawn if the function asks for one.
-/
def value? (function : Builtin) (unit : AngleUnit) (draw : Float) (arguments : List Float) :
    Option Float :=
  match function, arguments with
  | sin, [x] => some (unit.toRadians x).sin
  | cos, [x] => some (unit.toRadians x).cos
  | tan, [x] => some (unit.toRadians x).tan
  | asin, [x] => some (unit.ofRadians x.asin)
  | acos, [x] => some (unit.ofRadians x.acos)
  | atan, [x] => some (unit.ofRadians x.atan)
  | sqrt, [x] => some x.sqrt
  | cbrt, [x] => some (Double.cubeRoot x)
  | ln, [x] => some x.log
  | log, [x] => some x.log10
  | exp, [x] => some x.exp
  | pow, [x, y] => some (x.pow y)
  | abs, [x] => some x.abs
  | floor, [x] => some (Double.floor x)
  | ceil, [x] => some (Double.ceil x)
  | round, [x] => some (Double.roundHalfUp x)
  | min, x :: xs => some (Double.least (x :: xs))
  | max, x :: xs => some (Double.greatest (x :: xs))
  | rand, [] => some draw
  | percent, [x] => some (x / 100)
  | _, _ => none

def apply (function : Builtin) (unit : AngleUnit) (draw : Float) (arguments : List Float) :
    Except EvaluationError Float :=
  match function.value? unit draw arguments with
  | some value => .ok value
  | none => .error (.argumentCount function.name function.arity arguments.length)

end Builtin
end Calculator
