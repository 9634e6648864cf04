import Calculator.Arity
import Calculator.NumberText

/-!
# Failures

What can go wrong between an expression and its value, as causes.  There is one
type for each stage, so that a stage's type says which causes it can have, and
`Failure` for their union.  The wording of each cause is given here and nowhere
else.
-/

namespace Calculator

/-! ## Characters -/

inductive LexicalError where
  /-- A character that starts no token, and the number of bytes before it. -/
  | unexpected (character : Char) (position : Nat)
  deriving Repr, DecidableEq

/-! ## Arrangement of tokens -/

inductive ArrangementError where
  | mismatchedParentheses
  | misplacedComma
  | missingOperand (symbol : Char)
  | emptyArgument (function : String)
  | unknownOperator (symbol : Char)
  deriving Repr, DecidableEq

/-! ## Evaluation -/

inductive EvaluationError where
  | unknownFunction (name : String)
  | unknownName (name : String)
  | argumentCount (function : String) (expected : Arity) (found : Nat)
  | missingOperands (consumer : String)
  /-- The number of values left when there should be one. -/
  | malformed (remaining : Nat)
  | notFinite (value : Float)
  deriving Repr

/-! ## Domain of the factorial -/

inductive DomainError where
  | notFinite (value : Float)
  | negative (value : Float)
  | notWhole (value : Float)
  | tooLarge (value : Float)
  deriving Repr

inductive Failure where
  | lexical (error : LexicalError)
  | arrangement (error : ArrangementError)
  | evaluation (error : EvaluationError)
  | domain (error : DomainError)
  deriving Repr

/-! ## Wording -/

open NumberText

def LexicalError.message : LexicalError → String
  | unexpected character position =>
      s!"Unknown character '{character}' at position {position}."

def ArrangementError.message : ArrangementError → String
  | mismatchedParentheses => "Mismatched parentheses."
  | misplacedComma => "Misplaced comma outside of a function call."
  | missingOperand symbol => s!"Operator '{symbol}' is missing an operand."
  | emptyArgument function => s!"Empty argument in call to function '{function}'."
  | unknownOperator symbol => s!"Unknown operator '{symbol}'."

def EvaluationError.message : EvaluationError → String
  | unknownFunction name => s!"Unknown function '{name}'."
  | unknownName name => s!"Unknown identifier '{name}'."
  | argumentCount function expected found =>
      s!"Function '{function}' expects {expected.description}, but found {found}."
  | missingOperands consumer => s!"Missing operands for '{consumer}'."
  | malformed remaining =>
      s!"Malformed expression: {remaining} values left after evaluation."
  | notFinite value => s!"Result is not a finite number ({exactText value})."

/-- The greatest number whose factorial is a finite double. -/
def maxFactorial : Nat :=
  170

def DomainError.message : DomainError → String
  | notFinite value =>
      s!"Factorial is not defined for non-finite value {exactText value}."
  | negative value =>
      s!"Factorial is not defined for negative number {exactText value}."
  | notWhole value =>
      s!"Factorial is only defined for integers, but found {exactText value}."
  | tooLarge value =>
      s!"Factorial of {exactText value} is too large; the maximum is {maxFactorial}."

namespace Failure

def kind : Failure → String
  | lexical _ => "LexError"
  | arrangement _ => "ParseError"
  | evaluation _ => "EvalError"
  | domain _ => "DomainError"

def message : Failure → String
  | lexical error => error.message
  | arrangement error => error.message
  | evaluation error => error.message
  | domain error => error.message

def report (failure : Failure) : String :=
  s!"{failure.kind}: {failure.message}"

end Failure
end Calculator
