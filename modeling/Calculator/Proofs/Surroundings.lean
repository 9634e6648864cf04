import Calculator.Proofs.Mentions
import Calculator.Proofs.StackDepth

/-!
# Programs in other surroundings

What a program computes depends on little of what surrounds it.  The values that lie
below on the stack are not touched, the random numbers matter only to a call of `rand`,
and the previous answer only to a program that reads it.
-/

namespace Calculator

/-- Whether a name means the same in two environments, and no random number. -/
def Mention.Fixed (environment other : Environment) : Mention → Prop
  | reads name => other.lookup? name = environment.lookup? name
  | calls name => name ≠ "rand"

theorem Builtin.apply_of_ne_rand {function : Builtin} (h : function ≠ .rand) (unit : AngleUnit)
    (draw other : Float) (arguments : List Float) :
    function.apply unit other arguments = function.apply unit draw arguments := by
  have hvalue : function.value? unit other arguments = function.value? unit draw arguments := by
    rcases arguments with _ | ⟨x, _ | ⟨y, _ | ⟨z, rest⟩⟩⟩ <;> cases function <;> first
      | rfl
      | exact absurd rfl h
  rw [apply, hvalue, apply]

namespace Machine

theorem take?_append {count : Nat} {stack operands rest : List Float}
    (h : take? count stack = some (operands, rest)) (below : List Float) :
    take? count (stack ++ below) = some (operands, rest ++ below) := by
  rw [take?_eq] at h
  split at h
  · rename_i hcount
    cases h
    rw [take?_eq, if_pos (by rw [List.length_append]; omega)]
    rw [List.take_append_of_le_length hcount, List.drop_append_of_le_length hcount]
  · cases h

section

variable {environment other : Environment} (hunit : other.unit = environment.unit)
  {machine machine' : Machine} {below : List Float}

include hunit

/-- An instruction has the same value above other values. -/
theorem exists_value_of_fixed {next : Machine} {instruction : Instruction} {x : Float}
    (hstack : machine'.stack = machine.stack ++ below)
    (hfixed : ∀ mention ∈ instruction.mention?, mention.Fixed environment other)
    (h : machine.value environment instruction = .ok (x, next)) :
    ∃ next', machine'.value other instruction = .ok (x, next') ∧
      next'.stack = next.stack ++ below := by
  cases instruction with
  | number value =>
      cases h
      exact ⟨machine', rfl, hstack⟩
  | name text =>
      have hlookup : other.lookup? text = environment.lookup? text := hfixed (.reads text) rfl
      rw [value] at h
      split at h
      · rename_i hfound
        cases h
        refine ⟨machine', ?_, hstack⟩
        rw [value, hlookup, hfound]
      · cases h
  | operator op =>
      rw [value] at h
      split at h
      · cases h
      · rename_i htake
        rcases Sequencing.bind_eq_ok.mp h with ⟨result, happly, hnext⟩
        cases hnext
        refine ⟨{ machine' with stack := _ }, ?_, rfl⟩
        rw [value, hstack, take?_append htake below]
        dsimp only
        rw [happly]
        rfl
  | call name count =>
      have hrand : name ≠ "rand" := hfixed (.calls name) rfl
      rw [value, Sequencing.mapError_eq_ok, call] at h
      split at h
      · cases h
      · rename_i function hnamed
        split at h
        · cases h
        · rename_i arguments rest htake
          rcases Sequencing.bind_eq_ok.mp h with ⟨result, happly, hnext⟩
          cases hnext
          have hfunction : function ≠ .rand := by
            intro heq
            rw [heq] at hnamed
            exact hrand (Builtin.name_of_named? hnamed).symm
          refine ⟨machine'.below function (rest ++ below), ?_, rfl⟩
          rw [value, Sequencing.mapError_eq_ok, call, hnamed]
          dsimp only
          rw [hstack, take?_append htake below]
          dsimp only
          rw [hunit, Builtin.apply_of_ne_rand hfunction _ (machine.draw environment), happly]
          rfl

theorem exists_step_of_fixed {next : Machine} {instruction : Instruction}
    (hstack : machine'.stack = machine.stack ++ below)
    (hfixed : ∀ mention ∈ instruction.mention?, mention.Fixed environment other)
    (h : machine.step environment instruction = .ok next) :
    ∃ next', machine'.step other instruction = .ok next' ∧
      next'.stack = next.stack ++ below := by
  rcases Sequencing.bind_eq_ok.mp h with ⟨⟨x, rest⟩, hvalue, hnext⟩
  cases hnext
  rcases exists_value_of_fixed hunit hstack hfixed hvalue with ⟨rest', hvalue', hrest⟩
  refine ⟨rest'.push x, ?_, ?_⟩
  · rw [step, hvalue']
    rfl
  · show x :: rest'.stack = _
    rw [hrest]
    rfl

theorem exists_run_of_fixed {last : Machine} {program : Program}
    (hstack : machine'.stack = machine.stack ++ below)
    (hfixed : ∀ mention ∈ program.mentions, mention.Fixed environment other)
    (h : machine.run environment program = .ok last) :
    ∃ last', machine'.run other program = .ok last' ∧ last'.stack = last.stack ++ below := by
  induction program generalizing machine machine' with
  | nil =>
      cases h
      exact ⟨machine', rfl, hstack⟩
  | cons instruction program ih =>
      rw [run_cons] at h
      rcases Sequencing.bind_eq_ok.mp h with ⟨next, hstep, hrun⟩
      rw [Program.forall_mem_mentions_cons] at hfixed
      rcases exists_step_of_fixed hunit hstack hfixed.1 hstep with ⟨next', hstep', hnext⟩
      rcases ih hnext hfixed.2 hrun with ⟨last', hrun', hlast⟩
      refine ⟨last', ?_, hlast⟩
      rw [run_cons, hstep']
      exact hrun'

end

/-! ## Values of whole programs -/

theorem result_eq_ok {machine : Machine} {x : Float} :
    machine.result = .ok x ↔ machine.stack = [x] ∧ Double.isFinite x = true := by
  rw [result]
  split
  · rename_i value hstack
    rw [hstack]
    constructor
    · intro h
      split at h
      · cases h
        exact ⟨rfl, ‹_›⟩
      · cases h
    · intro h
      rcases h with ⟨h, hfinite⟩
      cases h
      rw [if_pos hfinite]
  · rename_i hstack
    constructor
    · intro h
      cases h
    · intro h
      exact absurd h.1 (hstack x)

end Machine

theorem Program.evaluate_eq_ok {environment : Environment} {program : Program} {x : Float} :
    program.evaluate environment = .ok x ↔
      (∃ last, Machine.start.run environment program = .ok last ∧ last.stack = [x]) ∧
        Double.isFinite x = true := by
  rw [evaluate_eq, Sequencing.bind_eq_ok]
  constructor
  · intro h
    rcases h with ⟨last, hrun, hresult⟩
    rw [Sequencing.mapError_eq_ok, Machine.result_eq_ok] at hresult
    exact ⟨⟨last, hrun, hresult.1⟩, hresult.2⟩
  · intro h
    rcases h with ⟨⟨last, hrun, hstack⟩, hfinite⟩
    refine ⟨last, hrun, ?_⟩
    rw [Sequencing.mapError_eq_ok, Machine.result_eq_ok]
    exact ⟨hstack, hfinite⟩

end Calculator
