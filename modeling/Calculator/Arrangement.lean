import Calculator.Failure
import Calculator.Pending
import Calculator.Role

/-!
# Arranging tokens into a program

Tokens in the order of the expression are arranged into a program in a single
pass.  Operands go to the output at once.  An operator first releases the pending
operators that it yields to and then waits itself; a comma, a closing parenthesis
and the end release everything down to the innermost bracket.
-/

namespace Calculator

structure Arrangement where
  /-- The instructions so far, latest first. -/
  output : List Instruction
  /-- The pending operators and brackets, innermost first. -/
  pending : List Pending
  previous : Previous
  deriving Repr

namespace Arrangement

def start : Arrangement :=
  ⟨[], [], .start⟩

/-! ## Single tokens -/

/-- The symbol of the operator that was read last and still lacks its right operand. -/
def dangling? (a : Arrangement) : Option Char :=
  match a.previous, a.pending with
  | .operator, .operator op :: _ => some op.symbol
  | _, _ => none

def addOperand (a : Arrangement) (instruction : Instruction) : Arrangement :=
  { a with output := instruction :: a.output, previous := .operand }

def addOpening (a : Arrangement) (bracket : Pending) : Arrangement :=
  { a with pending := bracket :: a.pending, previous := .opening }

def addOperator (a : Arrangement) (op : Operator) : Arrangement :=
  let (output, pending) := Pending.release op.yieldsTo a.output a.pending
  ⟨output, .operator op :: pending, .operator⟩

/-- A symbol between operands, or a `-` before one. -/
def placeOperator (a : Arrangement) (symbol : Char) : Except ArrangementError Arrangement :=
  match Operator.between? symbol with
  | none => .error (.unknownOperator symbol)
  | some op =>
      if !a.previous.expectsOperand then .ok (a.addOperator op)
      else if op = .subtract then .ok (a.addOperator .negate)
      else .error (.missingOperand symbol)

def placeSuffix (a : Arrangement) (symbol : Char) : Except ArrangementError Arrangement :=
  match Operator.behind? symbol with
  | none => .error (.unknownOperator symbol)
  | some op =>
      if a.previous.expectsOperand then .error (.missingOperand symbol)
      else .ok { a with output := .operator op :: a.output, previous := .suffix }

/-- A comma ends an argument of the innermost bracket, which has to be a call. -/
def placeComma (a : Arrangement) : Except ArrangementError Arrangement :=
  match a.dangling? with
  | some symbol => .error (.missingOperand symbol)
  | none =>
      match Pending.drain a.output a.pending with
      | (output, .call function commas :: pending) =>
          match a.previous with
          | .opening | .comma => .error (.emptyArgument function)
          | _ => .ok ⟨output, .call function (commas + 1) :: pending, .comma⟩
      | _ => .error .misplacedComma

def placeClose (a : Arrangement) : Except ArrangementError Arrangement :=
  match a.dangling? with
  | some symbol => .error (.missingOperand symbol)
  | none =>
      match Pending.drain a.output a.pending with
      | (_, []) => .error .mismatchedParentheses
      | (output, .call function commas :: pending) =>
          match a.previous with
          | .opening => .ok ⟨.call function 0 :: output, pending, .closing⟩
          | .comma => .error (.emptyArgument function)
          | _ => .ok ⟨.call function (commas + 1) :: output, pending, .closing⟩
      | (output, _ :: pending) => .ok ⟨output, pending, .closing⟩

def place (a : Arrangement) (role : Role) : Except ArrangementError Arrangement :=
  match role with
  | .operand instruction => .ok (a.addOperand instruction)
  | .openGroup => .ok (a.addOpening .group)
  | .openCall function => .ok (a.addOpening (.call function 0))
  | .close => a.placeClose
  | .comma => a.placeComma
  | .operator symbol => a.placeOperator symbol
  | .suffix symbol => a.placeSuffix symbol
  | .blank => .ok a

/-! ## Whole expressions -/

def finish (a : Arrangement) : Except ArrangementError Program :=
  match a.dangling? with
  | some symbol => .error (.missingOperand symbol)
  | none =>
      match Pending.drain a.output a.pending with
      | (output, []) => .ok output.reverse
      | _ => .error .mismatchedParentheses

def placeAll (a : Arrangement) (roles : List Role) : Except ArrangementError Arrangement :=
  roles.foldlM place a

end Arrangement

def arrange (tokens : List Token) : Except ArrangementError Program := do
  let a ← Arrangement.start.placeAll (Role.ofTokens tokens)
  a.finish

end Calculator
