import Calculator.Proofs.StructuralFault
import Calculator.Proofs.Surroundings

/-!
# Counts of operands

How many operands an operator or a function takes is said in two places, in its arity and
in the cases of its value.  The two agree: there is a value for exactly those counts that
the arity accepts.  The machine goes by the arity when it takes operands off the stack, so
no case is ever missing there.  An evaluation reports missing operands only where the stack
holds too few of them, and a wrong number of arguments only where a call is written with a
number that its function does not accept.
-/

namespace Calculator

/-! ## Values and arities -/

theorem Builtin.apply_eq_error {function : Builtin} {unit : AngleUnit} {draw : Float}
    {arguments : List Float} {error : EvaluationError} :
    function.apply unit draw arguments = .error error ↔
      function.arity.accepts arguments.length = false ∧
      error = .argumentCount function.name function.arity arguments.length := by
  cases haccepts : function.arity.accepts arguments.length with
  | true =>
      rcases exists_apply_of_accepts unit draw haccepts with ⟨x, hvalue⟩
      simp [hvalue]
  | false => simp [apply_of_refused unit draw haccepts, eq_comm]

theorem Operator.apply_of_ne_operandCount {op : Operator} {operands : List Float}
    (h : operands.length ≠ op.operandCount) :
    op.apply operands = .error (.evaluation (.missingOperands op.symbol.toString)) := by
  rcases operands with _ | ⟨x, _ | ⟨y, _ | ⟨z, operands⟩⟩⟩ <;> cases op <;> first
    | rfl
    | exact absurd rfl h

theorem Operator.apply_eq_missingOperands {op : Operator} {operands : List Float}
    {consumer : String} :
    op.apply operands = .error (.evaluation (.missingOperands consumer)) ↔
      operands.length ≠ op.operandCount ∧ consumer = op.symbol.toString := by
  by_cases hcount : operands.length = op.operandCount
  · rcases apply_of_operandCount hcount with ⟨x, hvalue⟩ | ⟨error, hvalue⟩ <;>
      simp [hvalue, hcount]
  · simp [apply_of_ne_operandCount hcount, hcount, eq_comm]

/-! ## Counts in the check of an instruction -/

inductive Instruction.Consumer : Instruction → String → Prop where
  | operator (op : Operator) : Consumer (.operator op) op.symbol.toString
  | call {name : String} {function : Builtin} (count : Nat) :
      Builtin.named? name = some function → Consumer (.call name count) name

namespace Instruction

theorem check_eq_missingOperands {before : Nat} {instruction : Instruction} {consumer : String} :
    instruction.check before = .error (.missingOperands consumer) ↔
      instruction.Consumer consumer ∧ before < instruction.operandCount := by
  constructor
  · intro h
    cases instruction with
    | number value => cases h
    | name text =>
        rw [check] at h
        split at h <;> cases h
    | operator op =>
        rw [check] at h
        split at h <;> cases h
        exact ⟨.operator op, Nat.lt_of_not_le ‹_›⟩
    | call function count =>
        rw [check] at h
        split at h
        · cases h
        · split at h
          · split at h <;> cases h
          · cases h
            exact ⟨.call count ‹_›, Nat.lt_of_not_le ‹_›⟩
  · rintro ⟨hconsumer, hcount⟩
    cases hconsumer with
    | operator op => exact if_neg (Nat.not_le_of_lt hcount)
    | call count hnamed =>
        rw [check, hnamed]
        exact if_neg (Nat.not_le_of_lt hcount)

theorem check_eq_argumentCount {before : Nat} {instruction : Instruction} {name : String}
    {expected : Arity} {found : Nat} :
    instruction.check before = .error (.argumentCount name expected found) ↔
      instruction = .call name found ∧ found ≤ before ∧
      ∃ function, Builtin.named? name = some function ∧ function.arity = expected ∧
        expected.accepts found = false := by
  constructor
  · intro h
    cases instruction with
    | number value => cases h
    | name text =>
        rw [check] at h
        split at h <;> cases h
    | operator op =>
        rw [check] at h
        split at h <;> cases h
    | call function count =>
        rw [check] at h
        split at h
        · cases h
        · rename_i builtin hnamed
          split at h
          · rename_i hcount
            split at h
            · cases h
            · rename_i haccepts
              cases h
              rw [Builtin.name_of_named? hnamed]
              exact ⟨rfl, hcount, builtin, hnamed, rfl, Bool.eq_false_iff.mpr haccepts⟩
          · cases h
  · rintro ⟨rfl, hcount, builtin, hnamed, rfl, haccepts⟩
    rw [check, hnamed]
    dsimp only
    rw [if_pos hcount, haccepts, if_neg Bool.false_ne_true, Builtin.name_of_named? hnamed]

end Instruction

/-! ## Failures of an instruction -/

/-- Whether an error is about the values that are left when a program has come to its end. -/
def EvaluationError.AtEnd : EvaluationError → Prop
  | malformed _ | notFinite _ => True
  | unknownFunction _ | unknownName _ | argumentCount _ _ _ | missingOperands _ => False

namespace Machine

variable {environment : Environment} {machine : Machine} {instruction : Instruction}
  {error : EvaluationError}

theorem exists_check_of_domain {domain : DomainError}
    (h : machine.value environment instruction = .error (.domain domain)) :
    ∃ depth, instruction.check machine.stack.length = .ok depth := by
  cases instruction with
  | number value => cases h
  | name text =>
      rw [value] at h
      split at h <;> cases h
  | operator op =>
      by_cases hcount : op.operandCount ≤ machine.stack.length
      · exact ⟨_, if_pos hcount⟩
      · rw [value, take?_eq, if_neg hcount] at h
        cases h
  | call name count =>
      rcases Sequencing.mapError_eq_error.mp h with ⟨error, _, hdomain⟩
      cases hdomain

theorem value_eq_error :
    machine.value environment instruction = .error (.evaluation error) ↔
      instruction.check machine.stack.length = .error error := by
  have hchecked := checked_value environment machine instruction
  constructor
  · intro h
    rw [h] at hchecked
    generalize instruction.check machine.stack.length = check at hchecked
    cases hchecked with
    | error error => rfl
  · intro h
    rw [h] at hchecked
    generalize hvalue : machine.value environment instruction = value at hchecked
    cases hchecked with
    | error error => rfl
    | domain domain _ =>
        rcases exists_check_of_domain hvalue with ⟨depth, hdepth⟩
        rw [h] at hdepth
        cases hdepth

theorem step_eq_error {failure : Failure} :
    machine.step environment instruction = .error failure ↔
      machine.value environment instruction = .error failure := by
  constructor
  · intro h
    rcases Sequencing.bind_eq_error.mp h with hvalue | ⟨result, _, hnext⟩
    · exact hvalue
    · cases hnext
  · intro h
    rw [step, h]
    rfl

theorem atEnd_of_result (h : machine.result = .error error) : error.AtEnd := by
  rw [result] at h
  split at h
  · split at h <;> cases h
    trivial
  · cases h
    trivial

end Machine

/-! ## Failures of a program -/

namespace Program

theorem evaluate_eq_error {environment : Environment} {program : Program}
    {error : EvaluationError} (hend : ¬ error.AtEnd) :
    program.evaluate environment = .error (.evaluation error) ↔
      ∃ before instruction after machine, program = before ++ instruction :: after ∧
        Machine.start.run environment before = .ok machine ∧
        instruction.check machine.stack.length = .error error := by
  have hrun : program.evaluate environment = .error (.evaluation error) ↔
      Machine.start.run environment program = .error (.evaluation error) := by
    rw [evaluate_eq, Sequencing.bind_eq_error]
    constructor
    · intro h
      rcases h with hrun | ⟨last, _, hresult⟩
      · exact hrun
      · rcases Sequencing.mapError_eq_error.mp hresult with ⟨error', hresult, herror⟩
        cases herror
        exact absurd (Machine.atEnd_of_result hresult) hend
    · exact Or.inl
  rw [hrun, Machine.run_eq_foldlM, Sequencing.foldlM_eq_error]
  simp only [← Machine.run_eq_foldlM, Machine.step_eq_error, Machine.value_eq_error]

end Program

/--
Functions and operators fail for the counts of operands that their arities do not accept,
and an evaluation misses operands or refuses a number of arguments for no other reason.
-/
theorem counts_of_operands :
    (∀ (function : Builtin) (unit : AngleUnit) (draw : Float) (arguments : List Float)
      (error : EvaluationError), function.apply unit draw arguments = .error error ↔
        function.arity.accepts arguments.length = false ∧
        error = .argumentCount function.name function.arity arguments.length) ∧
    (∀ (op : Operator) (operands : List Float) (consumer : String),
      op.apply operands = .error (.evaluation (.missingOperands consumer)) ↔
        operands.length ≠ op.operandCount ∧ consumer = op.symbol.toString) ∧
    (∀ (program : Program) (environment : Environment) (consumer : String),
      program.evaluate environment = .error (.evaluation (.missingOperands consumer)) ↔
        ∃ before instruction after machine, program = before ++ instruction :: after ∧
          Machine.start.run environment before = .ok machine ∧
          instruction.Consumer consumer ∧
          machine.stack.length < instruction.operandCount) ∧
    ∀ (program : Program) (environment : Environment) (name : String) (expected : Arity)
      (found : Nat),
      program.evaluate environment = .error (.evaluation (.argumentCount name expected found)) ↔
        ∃ before after machine function, program = before ++ .call name found :: after ∧
          Machine.start.run environment before = .ok machine ∧
          found ≤ machine.stack.length ∧ Builtin.named? name = some function ∧
          function.arity = expected ∧ expected.accepts found = false := by
  refine ⟨fun _ _ _ _ _ => Builtin.apply_eq_error,
    fun _ _ _ => Operator.apply_eq_missingOperands, ?_, ?_⟩
  · intro program environment consumer
    have hend : ¬ (EvaluationError.missingOperands consumer).AtEnd := id
    rw [Program.evaluate_eq_error hend]
    simp only [Instruction.check_eq_missingOperands]
  · intro program environment name expected found
    have hend : ¬ (EvaluationError.argumentCount name expected found).AtEnd := id
    rw [Program.evaluate_eq_error hend]
    simp only [Instruction.check_eq_argumentCount]
    constructor
    · rintro ⟨before, _, after, machine, rfl, hrun, rfl, hcount, function, hfunction⟩
      exact ⟨before, after, machine, function, rfl, hrun, hcount, hfunction⟩
    · rintro ⟨before, after, machine, function, rfl, hrun, hcount, hfunction⟩
      exact ⟨before, _, after, machine, rfl, hrun, rfl, hcount, function, hfunction⟩

end Calculator
