import Calculator.NumberText
import Calculator.Operator

/-!
# Programs for the value stack

An expression is evaluated by a program in reverse Polish notation: numbers and
names push a value, and operators and calls replace the values on top of the stack
by one.  A call carries the number of arguments that were written.
-/

namespace Calculator

inductive Instruction where
  | number (value : Float)
  | name (text : String)
  | operator (op : Operator)
  | call (function : String) (count : Nat)
  deriving Repr

abbrev Program := List Instruction

/-! ## Text -/

/-- An instruction as text; negation is told from subtraction by a name. -/
def Instruction.text : Instruction → String
  | number value => NumberText.exactText value
  | name text => text
  | operator .negate => "neg"
  | operator op => op.symbol.toString
  | call function count => s!"{function}/{count}"

def Program.text (program : Program) : String :=
  " ".intercalate (program.map Instruction.text)

end Calculator
