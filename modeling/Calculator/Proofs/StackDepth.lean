import Calculator.Evaluation
import Calculator.Proofs.Sequencing

/-!
# The number of values on the stack

How many values an instruction takes and leaves does not depend on the values.
So a program can be run on their number alone, and this account is exact: a run
that succeeds leaves as many values as the account says, and a run of a program
that finds all its operands fails only for a reason that lies in one instruction,
a name without a meaning, a refused number of arguments or a factorial outside
its domain.
-/

namespace Calculator

/-! ## Programs on the number of values -/

namespace Instruction

def operandCount : Instruction → Nat
  | number _ | name _ => 0
  | operator op => op.operandCount
  | call _ count => count

/-- The number of values after an instruction, if there are enough before it. -/
def depth? (before : Nat) (instruction : Instruction) : Option Nat :=
  if instruction.operandCount ≤ before then some (before - instruction.operandCount + 1)
  else none

theorem depth?_eq_some {before after : Nat} {instruction : Instruction} :
    instruction.depth? before = some after ↔
      instruction.operandCount ≤ before ∧ before - instruction.operandCount + 1 = after := by
  unfold depth?
  split
  · rename_i h
    simp [h]
  · rename_i h
    simp [h]

end Instruction

namespace Program

def depth? (before : Nat) (program : Program) : Option Nat :=
  program.foldlM Instruction.depth? before

theorem depth?_nil (before : Nat) : depth? before [] = some before := rfl

theorem depth?_cons (before : Nat) (instruction : Instruction) (program : Program) :
    depth? before (instruction :: program) =
      (instruction.depth? before).bind fun after => depth? after program :=
  List.foldlM_cons

theorem depth?_append (before : Nat) (first second : Program) :
    depth? before (first ++ second) =
      (depth? before first).bind fun after => depth? after second :=
  List.foldlM_append

end Program

/-! ## Failures that lie in one instruction -/

/-- Whether a failure lies in one instruction that has its operands. -/
def Failure.AtInstruction : Failure → Prop
  | .evaluation (.unknownFunction _) | .evaluation (.unknownName _)
  | .evaluation (.argumentCount _ _ _) | .domain _ => True
  | _ => False

theorem Operator.operandCount_eq_one_or_two (op : Operator) :
    op.operandCount = 1 ∨ op.operandCount = 2 := by
  cases op <;> decide

theorem Operator.apply_of_operandCount {op : Operator} {operands : List Float}
    (h : operands.length = op.operandCount) :
    (∃ x, op.apply operands = .ok x) ∨ ∃ error, op.apply operands = .error (.domain error) := by
  rcases op.operandCount_eq_one_or_two with hone | htwo
  · rw [hone, List.length_eq_one_iff] at h
    rcases h with ⟨x, rfl⟩
    cases op with
    | factorial =>
        rw [apply]
        cases Calculator.factorial x with
        | ok value => exact Or.inl ⟨value, rfl⟩
        | error error => exact Or.inr ⟨error, rfl⟩
    | negate => exact Or.inl ⟨_, rfl⟩
    | add | subtract | multiply | divide | remainder | power => cases hone
  · rw [htwo] at h
    rcases operands with _ | ⟨x, _ | ⟨y, _ | ⟨z, operands⟩⟩⟩
    · cases h
    · cases h
    · cases op with
      | add | subtract | multiply | divide | remainder | power => exact Or.inl ⟨_, rfl⟩
      | negate | factorial => cases htwo
    · cases h

theorem Operator.atInstruction_of_apply {op : Operator} {operands : List Float}
    {failure : Failure} (hcount : operands.length = op.operandCount)
    (happly : op.apply operands = .error failure) : failure.AtInstruction := by
  rcases apply_of_operandCount hcount with ⟨x, hvalue⟩ | ⟨error, herror⟩
  · rw [hvalue] at happly
    cases happly
  · rw [herror] at happly
    cases happly
    trivial

theorem Builtin.atInstruction_of_apply {function : Builtin} {unit : AngleUnit} {draw : Float}
    {arguments : List Float} {error : EvaluationError}
    (happly : function.apply unit draw arguments = .error error) :
    (Failure.evaluation error).AtInstruction := by
  unfold Builtin.apply at happly
  split at happly
  · cases happly
  · cases happly
    trivial

/-! ## The machine keeps the account -/

namespace Machine

theorem takeOnto_eq (operands : List Float) (count : Nat) (stack : List Float) :
    takeOnto operands count stack =
      if count ≤ stack.length then
        some ((stack.take count).reverse ++ operands, stack.drop count)
      else none := by
  induction count generalizing operands stack with
  | zero => simp [takeOnto]
  | succ count ih =>
      cases stack with
      | nil => simp [takeOnto]
      | cons value stack => simp [takeOnto, ih]

theorem take?_eq (count : Nat) (stack : List Float) :
    take? count stack =
      if count ≤ stack.length then some ((stack.take count).reverse, stack.drop count)
      else none := by
  simp [take?, takeOnto_eq]

theorem take?_of_le {count : Nat} {stack : List Float} (h : count ≤ stack.length) :
    take? count stack = some ((stack.take count).reverse, stack.drop count) := by
  rw [take?_eq, if_pos h]

theorem length_reverse_take {count : Nat} {stack : List Float} (h : count ≤ stack.length) :
    (stack.take count).reverse.length = count := by
  rw [List.length_reverse, List.length_take, Nat.min_eq_left h]

theorem stack_of_value {environment : Environment} {machine next : Machine}
    {instruction : Instruction} {value : Float}
    (h : machine.value environment instruction = .ok (value, next)) :
    instruction.operandCount ≤ machine.stack.length ∧
      next.stack = machine.stack.drop instruction.operandCount := by
  cases instruction with
  | number value =>
      cases h
      exact ⟨Nat.zero_le _, rfl⟩
  | name text =>
      rw [Machine.value] at h
      split at h
      · cases h
        exact ⟨Nat.zero_le _, rfl⟩
      · cases h
  | operator op =>
      rw [Machine.value, take?_eq] at h
      split at h
      · cases h
      · rename_i htake
        split at htake
        · rename_i hcount
          cases htake
          rcases Sequencing.bind_eq_ok.mp h with ⟨result, _, hnext⟩
          cases hnext
          exact ⟨hcount, rfl⟩
        · cases htake
  | call name count =>
      rw [Machine.value, Sequencing.mapError_eq_ok, Machine.call] at h
      split at h
      · cases h
      · rw [take?_eq] at h
        split at h
        · cases h
        · rename_i htake
          split at htake
          · rename_i hcount
            cases htake
            rcases Sequencing.bind_eq_ok.mp h with ⟨result, _, hnext⟩
            cases hnext
            exact ⟨hcount, rfl⟩
          · cases htake

theorem atInstruction_of_value {environment : Environment} {machine : Machine}
    {instruction : Instruction} {failure : Failure}
    (hcount : instruction.operandCount ≤ machine.stack.length)
    (h : machine.value environment instruction = .error failure) : failure.AtInstruction := by
  cases instruction with
  | number value => cases h
  | name text =>
      rw [Machine.value] at h
      split at h
      · cases h
      · cases h
        trivial
  | operator op =>
      change op.operandCount ≤ machine.stack.length at hcount
      rw [Machine.value, take?_of_le hcount] at h
      rcases Sequencing.bind_eq_error.mp h with happly | ⟨result, _, hnext⟩
      · exact Operator.atInstruction_of_apply (length_reverse_take hcount) happly
      · cases hnext
  | call name count =>
      change count ≤ machine.stack.length at hcount
      rw [Machine.value, Sequencing.mapError_eq_error] at h
      rcases h with ⟨error, hcall, rfl⟩
      rw [Machine.call] at hcall
      split at hcall
      · cases hcall
        trivial
      · rw [take?_of_le hcount] at hcall
        rcases Sequencing.bind_eq_error.mp hcall with happly | ⟨result, _, hnext⟩
        · exact Builtin.atInstruction_of_apply happly
        · cases hnext

theorem depth?_of_step {environment : Environment} {machine next : Machine}
    {instruction : Instruction} (h : machine.step environment instruction = .ok next) :
    instruction.depth? machine.stack.length = some next.stack.length := by
  rcases Sequencing.bind_eq_ok.mp h with ⟨⟨value, rest⟩, hvalue, hnext⟩
  rcases stack_of_value hvalue with ⟨hcount, hstack⟩
  cases hnext
  rw [Instruction.depth?_eq_some]
  simp [push, hstack, hcount]

theorem atInstruction_of_step {environment : Environment} {machine : Machine}
    {instruction : Instruction} {failure : Failure}
    (hcount : instruction.operandCount ≤ machine.stack.length)
    (h : machine.step environment instruction = .error failure) : failure.AtInstruction := by
  rcases Sequencing.bind_eq_error.mp h with hvalue | ⟨result, _, hnext⟩
  · exact atInstruction_of_value hcount hvalue
  · cases hnext

/-! ## Runs -/

theorem depth?_of_run {environment : Environment} {machine last : Machine} {program : Program}
    (h : machine.run environment program = .ok last) :
    program.depth? machine.stack.length = some last.stack.length := by
  induction program generalizing machine with
  | nil =>
      cases h
      rfl
  | cons instruction program ih =>
      rw [run_cons] at h
      rcases Sequencing.bind_eq_ok.mp h with ⟨next, hstep, hrun⟩
      rw [Program.depth?_cons, depth?_of_step hstep]
      exact ih hrun

theorem atInstruction_of_run {environment : Environment} {machine : Machine} {program : Program}
    {depth : Nat} {failure : Failure}
    (hdepth : program.depth? machine.stack.length = some depth)
    (h : machine.run environment program = .error failure) : failure.AtInstruction := by
  induction program generalizing machine with
  | nil => cases h
  | cons instruction program ih =>
      rw [Program.depth?_cons, Option.bind_eq_some_iff] at hdepth
      rcases hdepth with ⟨after, hafter, hdepth⟩
      rw [run_cons] at h
      rcases Sequencing.bind_eq_error.mp h with hstep | ⟨next, hstep, hrun⟩
      · exact atInstruction_of_step (Instruction.depth?_eq_some.mp hafter).1 hstep
      · rw [depth?_of_step hstep] at hafter
        cases hafter
        exact ih hdepth hrun

/-! ## The values that are left -/

/-- What a program may come to that finds its operands and leaves this many values. -/
def IsOutcome (depth : Nat) : Except Failure Float → Prop
  | .ok _ => depth = 1
  | .error (.evaluation (.notFinite _)) => depth = 1
  | .error (.evaluation (.malformed remaining)) => depth ≠ 1 ∧ remaining = depth
  | .error failure => failure.AtInstruction

theorem isOutcome_of_atInstruction (depth : Nat) {failure : Failure}
    (h : failure.AtInstruction) : IsOutcome depth (.error failure) := by
  cases failure with
  | lexical error => exact h
  | arrangement error => exact h
  | domain error => exact h
  | evaluation error =>
      cases error with
      | notFinite value => exact h.elim
      | malformed remaining => exact h.elim
      | missingOperands consumer => exact h
      | unknownFunction name => exact h
      | unknownName name => exact h
      | argumentCount function expected found => exact h

theorem isOutcome_result (machine : Machine) :
    IsOutcome machine.stack.length (machine.result.mapError .evaluation) := by
  rw [result]
  split
  · rename_i hstack
    rw [hstack]
    split
    · exact rfl
    · exact rfl
  · rename_i hstack
    constructor
    · intro hlength
      rcases List.length_eq_one_iff.mp hlength with ⟨value, hvalue⟩
      exact hstack value hvalue
    · rfl

end Machine

/-! ## Evaluation of a program that finds its operands -/

namespace Program

theorem depth?_of_evaluate {environment : Environment} {program : Program} {value : Float}
    (h : program.evaluate environment = .ok value) :
    program.depth? 0 = some 1 := by
  rcases Sequencing.bind_eq_ok.mp h with ⟨last, hrun, hresult⟩
  rw [Sequencing.mapError_eq_ok, Machine.result] at hresult
  split at hresult
  · rename_i hstack
    have hdepth := Machine.depth?_of_run hrun
    rw [hstack] at hdepth
    exact hdepth
  · cases hresult

theorem isOutcome_evaluate {program : Program} {depth : Nat} (environment : Environment)
    (hdepth : program.depth? 0 = some depth) :
    Machine.IsOutcome depth (program.evaluate environment) := by
  have hstart : program.depth? Machine.start.stack.length = some depth := hdepth
  rw [evaluate_eq]
  cases hrun : Machine.start.run environment program with
  | error failure =>
      exact Machine.isOutcome_of_atInstruction depth (Machine.atInstruction_of_run hstart hrun)
  | ok last =>
      have hlast := Machine.depth?_of_run hrun
      rw [hstart] at hlast
      cases hlast
      exact Machine.isOutcome_result last

end Program
end Calculator
