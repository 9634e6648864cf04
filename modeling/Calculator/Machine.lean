import Calculator.Builtin
import Calculator.Environment
import Calculator.Failure
import Calculator.Program

/-!
# The value stack

A machine runs a program over a stack of doubles.  Each instruction takes its
operands off the stack, in the order in which they were written, and pushes one
value; the first instruction that has none ends the run.  A run succeeds if one
finite value is left.
-/

namespace Calculator

structure Machine where
  /-- The values, latest first. -/
  stack : List Float
  drawn : Nat
  deriving Repr

namespace Machine

def start : Machine :=
  ⟨[], 0⟩

/-! ## The stack -/

def push (machine : Machine) (value : Float) : Machine :=
  { machine with stack := value :: machine.stack }

/-- Takes values off the stack in front of those taken before; the latest comes last. -/
def takeOnto (operands : List Float) : Nat → List Float → Option (List Float × List Float)
  | 0, stack => some (operands, stack)
  | _ + 1, [] => none
  | count + 1, value :: stack => takeOnto (value :: operands) count stack

def take? (count : Nat) (stack : List Float) : Option (List Float × List Float) :=
  takeOnto [] count stack

/-! ## Instructions -/

def draw (environment : Environment) (machine : Machine) : Float :=
  environment.draws.number machine.drawn

/-- The machine below a function's arguments, after its draw if it makes one. -/
def below (machine : Machine) (function : Builtin) (stack : List Float) : Machine :=
  ⟨stack, if function = .rand then machine.drawn + 1 else machine.drawn⟩

def call (environment : Environment) (machine : Machine) (name : String) (count : Nat) :
    Except EvaluationError (Float × Machine) :=
  match Builtin.named? name with
  | none => .error (.unknownFunction name)
  | some function =>
      match take? count machine.stack with
      | none => .error (.missingOperands name)
      | some (arguments, stack) => do
          let value ← function.apply environment.unit (machine.draw environment) arguments
          return (value, machine.below function stack)

def value (environment : Environment) (machine : Machine) :
    Instruction → Except Failure (Float × Machine)
  | .number value => .ok (value, machine)
  | .name text =>
      match environment.lookup? text with
      | some value => .ok (value, machine)
      | none => .error (.evaluation (.unknownName text))
  | .operator op =>
      match take? op.operandCount machine.stack with
      | none => .error (.evaluation (.missingOperands op.symbol.toString))
      | some (operands, stack) => do
          let value ← op.apply operands
          return (value, { machine with stack })
  | .call name count => (machine.call environment name count).mapError .evaluation

def step (environment : Environment) (machine : Machine) (instruction : Instruction) :
    Except Failure Machine := do
  let (value, machine) ← machine.value environment instruction
  return machine.push value

/-! ## Programs -/

/--
Carries out a program up to its end or to an instruction that fails.  Returns the instructions
that were carried out, each with the value that it pushed, behind those of `done`, which are
given latest first.
-/
def traceAfter (environment : Environment) (done : List (Instruction × Float))
    (machine : Machine) : Program → List (Instruction × Float) × Except Failure Machine
  | [] => (done.reverse, .ok machine)
  | instruction :: program =>
      match machine.value environment instruction with
      | .ok (value, next) =>
          traceAfter environment ((instruction, value) :: done) (next.push value) program
      | .error failure => (done.reverse, .error failure)

def trace (environment : Environment) (machine : Machine) (program : Program) :
    List (Instruction × Float) × Except Failure Machine :=
  machine.traceAfter environment [] program

def run (environment : Environment) (machine : Machine) (program : Program) :
    Except Failure Machine :=
  (machine.trace environment program).2

def result (machine : Machine) : Except EvaluationError Float :=
  match machine.stack with
  | [value] => if Double.isFinite value then .ok value else .error (.notFinite value)
  | stack => .error (.malformed stack.length)

/-! ## Runs of programs in sequence -/

theorem traceAfter_eq (environment : Environment) (done : List (Instruction × Float))
    (machine : Machine) (program : Program) :
    machine.traceAfter environment done program =
      (done.reverse ++ (machine.trace environment program).1, machine.run environment program) := by
  rw [run, trace]
  induction program generalizing machine done with
  | nil =>
      rw [traceAfter, traceAfter, List.reverse_nil, List.append_nil]
  | cons instruction program ih =>
      rw [traceAfter, traceAfter]
      cases machine.value environment instruction with
      | error failure => rw [List.reverse_nil, List.append_nil]
      | ok result =>
          dsimp only
          rw [ih (_ :: done), ih [_], List.reverse_cons, List.append_assoc]
          rfl

theorem trace_cons (environment : Environment) (machine : Machine) (instruction : Instruction)
    (program : Program) :
    machine.trace environment (instruction :: program) =
      match machine.value environment instruction with
      | .ok (value, next) =>
          ((instruction, value) :: ((next.push value).trace environment program).1,
            (next.push value).run environment program)
      | .error failure => ([], .error failure) := by
  rw [trace, traceAfter]
  cases machine.value environment instruction with
  | error failure => rfl
  | ok result => exact traceAfter_eq environment _ _ program

theorem run_nil (environment : Environment) (machine : Machine) :
    machine.run environment [] = .ok machine := rfl

theorem run_cons (environment : Environment) (machine : Machine)
    (instruction : Instruction) (program : Program) :
    machine.run environment (instruction :: program) =
      machine.step environment instruction >>= fun next => next.run environment program := by
  rw [run, trace_cons, step]
  cases machine.value environment instruction with
  | error failure => rfl
  | ok result => rfl

theorem run_eq_foldlM (environment : Environment) (machine : Machine) (program : Program) :
    machine.run environment program = program.foldlM (step environment) machine := by
  induction program generalizing machine with
  | nil => rfl
  | cons instruction program ih =>
      rw [run_cons, List.foldlM_cons, funext ih]

theorem run_append (environment : Environment) (machine : Machine)
    (first second : Program) :
    machine.run environment (first ++ second) =
      machine.run environment first >>= fun next => next.run environment second := by
  simp only [run_eq_foldlM, List.foldlM_append]

end Machine
end Calculator
