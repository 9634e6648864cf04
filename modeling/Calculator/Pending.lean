import Calculator.Program

/-!
# Pending operators and brackets

While tokens are arranged, operators wait for their right operand and brackets
for their end.  They form a stack, whose top is the head of a list.  `release`
moves operators from the top of the stack to the output, as long as they satisfy
a condition; the output is kept latest first.
-/

namespace Calculator

inductive Pending where
  | operator (op : Operator)
  | group
  /-- A call and the number of commas directly inside it so far. -/
  | call (function : String) (commas : Nat)
  deriving Repr, DecidableEq

namespace Pending

/-- Output and stack after the operators on top that satisfy `p` have been moved. -/
def release (p : Operator → Bool) (output : List Instruction) :
    List Pending → List Instruction × List Pending
  | operator op :: stack =>
      if p op then release p (.operator op :: output) stack
      else (output, operator op :: stack)
  | stack => (output, stack)

def drain (output : List Instruction) (stack : List Pending) :
    List Instruction × List Pending :=
  release (fun _ => true) output stack

end Pending

inductive Previous where
  | start
  | operand
  | operator
  | opening
  | comma
  | suffix
  | closing
  deriving Repr, DecidableEq

/-- Whether an operand has to come next, so that a `-` is a negation. -/
def Previous.expectsOperand : Previous → Bool
  | start | operator | opening | comma => true
  | operand | suffix | closing => false

end Calculator
