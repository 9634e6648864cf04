import Calculator.Proofs.ExpressionValue
import Mathlib.Data.List.Forall2

/-!
# Failures that lie in the structure of a program

Whether a name has a meaning, a call has an arity that accepts it, and an instruction
finds its operands can be told from the number of values on the stack alone.  `check`
runs a program on this number, and `fault?` is the failure that it finds.  A run of the
program itself goes along with the check: it stops at the same instruction for the same
reason, unless a factorial has left its domain before.  So the fault of a program is the
same for all numbers in it and in every environment.
-/

namespace Calculator

/-! ## The check -/

namespace Instruction

def check (before : Nat) (instruction : Instruction) : Except EvaluationError Nat :=
  match instruction with
  | number _ => .ok (before + 1)
  | name text => if text = "ans" then .ok (before + 1) else .error (.unknownName text)
  | operator op =>
      if op.operandCount ≤ before then .ok (before - op.operandCount + 1)
      else .error (.missingOperands op.symbol.toString)
  | call function count =>
      match Builtin.named? function with
      | none => .error (.unknownFunction function)
      | some builtin =>
          if count ≤ before then
            if builtin.arity.accepts count then .ok (before - count + 1)
            else .error (.argumentCount builtin.name builtin.arity count)
          else .error (.missingOperands function)

end Instruction

namespace Program

def check (before : Nat) (program : Program) : Except EvaluationError Nat :=
  program.foldlM Instruction.check before

theorem check_cons (before : Nat) (instruction : Instruction) (program : Program) :
    check before (instruction :: program) =
      instruction.check before >>= fun after => check after program :=
  List.foldlM_cons

/-- The failure that lies in the structure of a program, if there is one. -/
def fault? (program : Program) : Option EvaluationError :=
  match program.check 0 with
  | .error error => some error
  | .ok remaining => if remaining = 1 then none else some (.malformed remaining)

end Program

/-- Whether an error says something about the structure of a program, and not about a number. -/
def EvaluationError.IsStructural : EvaluationError → Prop
  | unknownFunction _ | unknownName _ | argumentCount _ _ _ | missingOperands _
  | malformed _ => True
  | notFinite _ => False

theorem Instruction.isStructural_of_check {before : Nat} {instruction : Instruction}
    {error : EvaluationError} (h : instruction.check before = .error error) :
    error.IsStructural := by
  cases instruction with
  | number value => cases h
  | name text =>
      rw [check] at h
      split at h <;> cases h
      trivial
  | operator op =>
      rw [check] at h
      split at h <;> cases h
      trivial
  | call name count =>
      rw [check] at h
      split at h
      · cases h
        trivial
      · split at h
        · split at h <;> cases h
          trivial
        · cases h
          trivial

theorem Program.isStructural_of_check {before : Nat} {program : Program}
    {error : EvaluationError} (h : program.check before = .error error) :
    error.IsStructural := by
  induction program generalizing before with
  | nil => cases h
  | cons instruction program ih =>
      rw [check_cons] at h
      rcases Sequencing.bind_eq_error.mp h with hfirst | ⟨after, _, hrest⟩
      · exact Instruction.isStructural_of_check hfirst
      · exact ih hrest

theorem Program.isStructural_of_fault? {program : Program} {error : EvaluationError}
    (h : program.fault? = some error) : error.IsStructural := by
  rw [fault?] at h
  split at h
  · rename_i hcheck
    cases h
    exact isStructural_of_check hcheck
  · split at h <;> cases h
    trivial

theorem Builtin.exists_apply_of_accepts {function : Builtin} {arguments : List Float}
    (unit : AngleUnit) (draw : Float)
    (h : function.arity.accepts arguments.length = true) :
    ∃ x, function.apply unit draw arguments = .ok x := by
  have hsome : ∃ x, function.value? unit draw arguments = some x := by
    rcases arguments with _ | ⟨x, _ | ⟨y, _ | ⟨z, rest⟩⟩⟩ <;> cases function <;> first
      | exact ⟨_, rfl⟩
      | cases h
  rcases hsome with ⟨x, hvalue⟩
  exact ⟨x, by rw [apply, hvalue]⟩

/-!
## Runs go along with the check

The check follows the number of values on the stack.  It fails where a run fails, unless a
factorial leaves its domain.
-/

/--
Whether a computation with numbers goes along with one on their number: both fail for
the same reason, or both succeed with related results, or a number is out of a domain.
-/
inductive Checked {α β : Type} (R : α → β → Prop) :
    Except Failure α → Except EvaluationError β → Prop where
  | ok {a : α} {b : β} : R a b → Checked R (.ok a) (.ok b)
  | error (error : EvaluationError) : Checked R (.error (.evaluation error)) (.error error)
  | domain (error : DomainError) (y : Except EvaluationError β) :
      Checked R (.error (.domain error)) y

theorem Checked.bind {α β α' β' : Type} {R : α → β → Prop} {S : α' → β' → Prop}
    {x : Except Failure α} {y : Except EvaluationError β} {f : α → Except Failure α'}
    {g : β → Except EvaluationError β'} (h : Checked R x y)
    (hnext : ∀ a b, R a b → Checked S (f a) (g b)) : Checked S (x >>= f) (y >>= g) := by
  cases h with
  | ok hrelated => exact hnext _ _ hrelated
  | error error => exact .error error
  | domain error y => exact .domain error _

namespace Machine

theorem checked_value (environment : Environment) (machine : Machine)
    (instruction : Instruction) :
    Checked (fun result depth => result.2.stack.length + 1 = depth)
      (machine.value environment instruction) (instruction.check machine.stack.length) := by
  cases instruction with
  | number value => exact .ok rfl
  | name text =>
      rw [value, Environment.lookup?, Instruction.check]
      by_cases htext : text = "ans"
      · rw [if_pos htext, if_pos htext]
        exact .ok rfl
      · rw [if_neg htext, if_neg htext]
        exact .error _
  | operator op =>
      rw [value, take?_eq, Instruction.check]
      by_cases hcount : op.operandCount ≤ machine.stack.length
      · rw [if_pos hcount, if_pos hcount]
        dsimp only
        rcases Operator.apply_of_operandCount (length_reverse_take hcount) with
          ⟨x, happly⟩ | ⟨error, happly⟩
        · rw [happly]
          exact .ok (congrArg (· + 1) List.length_drop)
        · rw [happly]
          exact .domain error _
      · rw [if_neg hcount, if_neg hcount]
        exact .error _
  | call name count =>
      rw [value, call, Instruction.check]
      cases hnamed : Builtin.named? name with
      | none => exact .error _
      | some function =>
          dsimp only
          rw [take?_eq]
          by_cases hcount : count ≤ machine.stack.length
          · rw [if_pos hcount, if_pos hcount]
            have hlength := length_reverse_take hcount
            dsimp only
            cases haccepts : function.arity.accepts count with
            | true =>
                rw [← hlength] at haccepts
                rcases Builtin.exists_apply_of_accepts environment.unit (machine.draw environment)
                  haccepts with ⟨x, happly⟩
                rw [happly]
                exact .ok (congrArg (· + 1) List.length_drop)
            | false =>
                rw [← hlength] at haccepts
                rw [Builtin.apply_of_refused _ _ haccepts, hlength]
                exact .error _
          · rw [if_neg hcount, if_neg hcount]
            exact .error _

theorem checked_step (environment : Environment) (machine : Machine)
    (instruction : Instruction) :
    Checked (fun next depth => next.stack.length = depth)
      (machine.step environment instruction) (instruction.check machine.stack.length) := by
  rw [← bind_pure (instruction.check machine.stack.length)]
  apply (checked_value environment machine instruction).bind
  intro result depth hdepth
  exact .ok hdepth

theorem checked_run (environment : Environment) (machine : Machine) (program : Program) :
    Checked (fun last depth => last.stack.length = depth)
      (machine.run environment program) (program.check machine.stack.length) := by
  induction program generalizing machine with
  | nil => exact .ok rfl
  | cons instruction program ih =>
      rw [run_cons, Program.check_cons]
      apply (checked_step environment machine instruction).bind
      intro next depth hdepth
      rw [← hdepth]
      exact ih next

end Machine

/-! ## Evaluations show the fault -/

def LeavesDomain (result : Except Failure Float) : Prop :=
  ∃ error, result = .error (.domain error)

instance (result : Except Failure Float) : Decidable (LeavesDomain result) :=
  match result with
  | .error (.domain error) => isTrue ⟨error, rfl⟩
  | .error (.lexical _) | .error (.arrangement _) | .error (.evaluation _) | .ok _ => isFalse nofun

def ComesToNumber (result : Except Failure Float) : Prop :=
  (∃ x, result = .ok x) ∨ ∃ x, result = .error (.evaluation (.notFinite x))

instance (result : Except Failure Float) : Decidable (ComesToNumber result) :=
  match result with
  | .ok x => isTrue (Or.inl ⟨x, rfl⟩)
  | .error (.evaluation (.notFinite x)) => isTrue (Or.inr ⟨x, rfl⟩)
  | .error (.lexical _) | .error (.arrangement _) | .error (.domain _)
  | .error (.evaluation (.unknownFunction _)) | .error (.evaluation (.unknownName _))
  | .error (.evaluation (.argumentCount _ _ _)) | .error (.evaluation (.missingOperands _))
  | .error (.evaluation (.malformed _)) => isFalse (by simp [ComesToNumber])

theorem Machine.comesToNumber_result {machine : Machine} (h : machine.stack.length = 1) :
    ComesToNumber (machine.result.mapError .evaluation) := by
  rcases List.length_eq_one_iff.mp h with ⟨x, hstack⟩
  rw [result, hstack]
  dsimp only
  split
  · exact Or.inl ⟨x, rfl⟩
  · exact Or.inr ⟨x, rfl⟩

theorem Machine.result_of_length_ne_one {machine : Machine} (h : machine.stack.length ≠ 1) :
    machine.result = .error (.malformed machine.stack.length) := by
  rw [result]
  split
  · rename_i hstack
    rw [hstack] at h
    exact absurd rfl h
  · rfl

namespace Program

/-- An evaluation shows the fault of its program, unless a factorial leaves its domain. -/
theorem evaluate_cases (environment : Environment) (program : Program) :
    LeavesDomain (program.evaluate environment) ∨
      (∃ error, program.fault? = some error ∧
        program.evaluate environment = .error (.evaluation error)) ∨
      (program.fault? = none ∧ ComesToNumber (program.evaluate environment)) := by
  have hchecked := Machine.checked_run environment .start program
  change Checked _ _ (program.check 0) at hchecked
  rw [evaluate_eq, fault?]
  revert hchecked
  generalize Machine.start.run environment program = run
  generalize program.check 0 = check
  intro hchecked
  cases hchecked with
  | domain error => exact Or.inl ⟨error, rfl⟩
  | error error => exact Or.inr (Or.inl ⟨error, rfl, rfl⟩)
  | @ok last depth hdepth =>
      subst hdepth
      rw [Sequencing.ok_bind]
      dsimp only
      by_cases hone : last.stack.length = 1
      · rw [if_pos hone]
        exact Or.inr (Or.inr ⟨rfl, Machine.comesToNumber_result hone⟩)
      · rw [if_neg hone, Machine.result_of_length_ne_one hone]
        exact Or.inr (Or.inl ⟨_, rfl, rfl⟩)

end Program

/-! ## Programs that differ in their numbers -/

inductive Instruction.SameShape : Instruction → Instruction → Prop where
  | number (x y : Float) : SameShape (.number x) (.number y)
  | refl (instruction : Instruction) : SameShape instruction instruction

theorem Instruction.SameShape.check_eq {instruction other : Instruction}
    (h : instruction.SameShape other) (before : Nat) :
    instruction.check before = other.check before := by
  cases h <;> rfl

theorem Program.check_of_sameShape {program other : Program}
    (h : List.Forall₂ Instruction.SameShape program other) (before : Nat) :
    program.check before = other.check before := by
  induction h generalizing before with
  | nil => rfl
  | cons hfirst _ ih =>
      rw [check_cons, check_cons, hfirst.check_eq before]
      exact congrArg _ (funext ih)

theorem Program.fault?_of_sameShape {program other : Program}
    (h : List.Forall₂ Instruction.SameShape program other) : program.fault? = other.fault? := by
  rw [fault?, fault?, check_of_sameShape h 0]

/-- Numbers and environments do not decide whether and why a program fails by its structure. -/
theorem Program.evaluate_of_sameShape {program other : Program}
    (hshape : List.Forall₂ Instruction.SameShape program other)
    (environment environment' : Environment)
    (hdomain : ¬ LeavesDomain (program.evaluate environment))
    (hdomain' : ¬ LeavesDomain (other.evaluate environment')) :
    (∃ error : EvaluationError, error.IsStructural ∧
      program.evaluate environment = .error (.evaluation error) ∧
      other.evaluate environment' = .error (.evaluation error)) ∨
    (ComesToNumber (program.evaluate environment) ∧
      ComesToNumber (other.evaluate environment')) := by
  have hfault := fault?_of_sameShape hshape
  rcases program.evaluate_cases environment with hleaves | ⟨error, hfirst, hresult⟩ |
    ⟨hfirst, hnumber⟩
  · exact absurd hleaves hdomain
  · rcases other.evaluate_cases environment' with hleaves | ⟨error', hsecond, hresult'⟩ |
      ⟨hsecond, _⟩
    · exact absurd hleaves hdomain'
    · rw [hfault, hsecond] at hfirst
      cases hfirst
      exact Or.inl ⟨error, isStructural_of_fault? hsecond, hresult, hresult'⟩
    · rw [hfault, hsecond] at hfirst
      cases hfirst
  · rcases other.evaluate_cases environment' with hleaves | ⟨error', hsecond, _⟩ |
      ⟨_, hnumber'⟩
    · exact absurd hleaves hdomain'
    · rw [hfault, hsecond] at hfirst
      cases hfirst
    · exact Or.inr ⟨hnumber, hnumber'⟩

theorem Program.evaluate_of_sameShape_of_root :
    let program (x y z : Float) : Program :=
      [.number x, .number y, .operator .divide, .number z, .operator .factorial, .call "sqrt" 2]
    List.Forall₂ Instruction.SameShape (program 0 0 5) (program 1 4 3) ∧
      ¬ LeavesDomain ((program 0 0 5).evaluate {}) ∧
      ¬ LeavesDomain ((program 1 4 3).evaluate ⟨.degrees, 7, default⟩) ∧
      ∃ error : EvaluationError, error.IsStructural ∧
        (program 0 0 5).evaluate {} = .error (.evaluation error) ∧
        (program 1 4 3).evaluate ⟨.degrees, 7, default⟩ = .error (.evaluation error) := by
  intro program
  have hshape : List.Forall₂ Instruction.SameShape (program 0 0 5) (program 1 4 3) :=
    .cons (.number 0 1) (.cons (.number 0 4) (.cons (.refl _) (.cons (.number 5 3)
      (.cons (.refl _) (.cons (.refl _) .nil)))))
  have hdomain : ¬ LeavesDomain ((program 0 0 5).evaluate {}) := by decide +kernel
  have hdomain' : ¬ LeavesDomain ((program 1 4 3).evaluate ⟨.degrees, 7, default⟩) := by
    decide +kernel
  refine ⟨hshape, hdomain, hdomain', ?_⟩
  rcases evaluate_of_sameShape hshape {} ⟨.degrees, 7, default⟩ hdomain hdomain' with
    hfault | ⟨hnumber, _⟩
  · exact hfault
  · have hrefused : ¬ ComesToNumber ((program 0 0 5).evaluate {}) := by
      decide +kernel
    exact absurd hnumber hrefused

end Calculator
