import Calculator.Double.Arithmetic
import Calculator.Factorial

/-!
# Operators

The operators of an expression: their symbols, how they compete for operands, and
their values.  Negation shares its symbol with subtraction; which one a `-` stands
for is decided where it is arranged.
-/

namespace Calculator

inductive Grouping where
  | left
  | right
  deriving Repr, DecidableEq

inductive Operator where
  | add
  | subtract
  | multiply
  | divide
  | remainder
  | power
  | negate
  | factorial
  deriving Repr, DecidableEq

namespace Operator

/-! ## Symbols -/

def between? : Char → Option Operator
  | '+' => some add
  | '-' => some subtract
  | '*' => some multiply
  | '/' => some divide
  | '%' => some remainder
  | '^' => some power
  | _ => none

def behind? : Char → Option Operator
  | '!' => some factorial
  | _ => none

def symbol : Operator → Char
  | add => '+'
  | subtract | negate => '-'
  | multiply => '*'
  | divide => '/'
  | remainder => '%'
  | power => '^'
  | factorial => '!'

/-! ## Competition for operands -/

def precedence : Operator → Nat
  | add | subtract => 2
  | multiply | divide | remainder => 3
  | power => 4
  | negate => 5
  | factorial => 6

def grouping : Operator → Grouping
  | power | negate => .right
  | add | subtract | multiply | divide | remainder | factorial => .left

/-- Whether an operator that comes later lets the pending one take the operand between them. -/
def yieldsTo (incoming pending : Operator) : Bool :=
  match incoming.grouping with
  | .left => incoming.precedence ≤ pending.precedence
  | .right => incoming.precedence < pending.precedence

/-! ## Values -/

def operandCount : Operator → Nat
  | negate | factorial => 1
  | add | subtract | multiply | divide | remainder | power => 2

def apply (op : Operator) (operands : List Float) : Except Failure Float :=
  match op, operands with
  | add, [x, y] => .ok (x + y)
  | subtract, [x, y] => .ok (x - y)
  | multiply, [x, y] => .ok (x * y)
  | divide, [x, y] => .ok (x / y)
  | remainder, [x, y] => .ok (Double.remainder x y)
  | power, [x, y] => .ok (x.pow y)
  | negate, [x] => .ok (-x)
  | factorial, [x] => (Calculator.factorial x).mapError .domain
  | op, _ => .error (.evaluation (.missingOperands op.symbol.toString))

end Operator
end Calculator
