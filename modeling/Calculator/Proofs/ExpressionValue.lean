import Calculator.Proofs.Expression

/-!
# The value of an expression tree

A tree is evaluated by recursion: the operands of a node from left to right, and
then the node itself, which resolves its name, checks the number of its arguments
and computes.  The first failure in this order is the failure of the tree.  Random
draws are counted along the way, because the stream of draws is the only thing that
one part of a tree hands on to the next.

The main statement is that running a program on a stack computes this value: a run
of the program of a tree puts its value on whatever stack lies below, and a
program that has a value is the program of exactly one tree.
-/

namespace Calculator

/-! ## Arities and values of functions -/

theorem Builtin.apply_of_refused {function : Builtin} {arguments : List Float}
    (unit : AngleUnit) (draw : Float)
    (h : function.arity.accepts arguments.length = false) :
    function.apply unit draw arguments =
      .error (.argumentCount function.name function.arity arguments.length) := by
  have hnone : function.value? unit draw arguments = none := by
    rcases arguments with _ | ⟨x, _ | ⟨y, _ | ⟨z, rest⟩⟩⟩ <;> cases function <;>
      first
      | rfl
      | cases h
  rw [apply, hnone]

namespace Expression

/-! ## Evaluation of trees -/

def callValue (environment : Environment) (drawn : Nat) (function : String)
    (arguments : List Float) : Except EvaluationError (Float × Nat) :=
  match Builtin.named? function with
  | none => .error (.unknownFunction function)
  | some builtin =>
      if builtin.arity.accepts arguments.length then do
        let draw := environment.draws.number drawn
        let value ← builtin.apply environment.unit draw arguments
        return (value, if builtin = .rand then drawn + 1 else drawn)
      else .error (.argumentCount builtin.name builtin.arity arguments.length)

theorem exists_callValue_rand (environment : Environment) (drawn : Nat) :
    ∃ x, callValue environment drawn "rand" [] = .ok (x, drawn + 1) ∧ 0 ≤ x ∧ x < 1 :=
  ⟨_, rfl, environment.draws.inRange drawn⟩

mutual

/-- The value of a tree, and the number of draws after it, given that before it. -/
def value (environment : Environment) (drawn : Nat) : Expression → Except Failure (Float × Nat)
  | number value => .ok (value, drawn)
  | name text =>
      match environment.lookup? text with
      | some value => .ok (value, drawn)
      | none => .error (.evaluation (.unknownName text))
  | unary op _ operand => do
      let (x, drawn) ← operand.value environment drawn
      let result ← op.apply [x]
      return (result, drawn)
  | binary op _ left right => do
      let (x, drawn) ← left.value environment drawn
      let (y, drawn) ← right.value environment drawn
      let result ← op.apply [x, y]
      return (result, drawn)
  | call function arguments => do
      let (xs, drawn) ← values environment drawn arguments
      (callValue environment drawn function xs).mapError .evaluation

def values (environment : Environment) (drawn : Nat) :
    List Expression → Except Failure (List Float × Nat)
  | [] => .ok ([], drawn)
  | first :: rest => do
      let (x, drawn) ← first.value environment drawn
      let (xs, drawn) ← values environment drawn rest
      return (x :: xs, drawn)

end

def evaluate (environment : Environment) (expression : Expression) : Except Failure Float := do
  let (value, _) ← expression.value environment 0
  if Double.isFinite value then return value
  else throw (.evaluation (.notFinite value))

theorem length_values {environment : Environment} {drawn after : Nat}
    {expressions : List Expression} {xs : List Float}
    (h : values environment drawn expressions = .ok (xs, after)) :
    xs.length = expressions.length := by
  induction expressions generalizing drawn xs with
  | nil =>
      cases h
      rfl
  | cons first rest ih =>
      rw [values] at h
      rcases Sequencing.bind_eq_ok.mp h with ⟨⟨x, between⟩, _, hrest⟩
      rcases Sequencing.bind_eq_ok.mp hrest with ⟨⟨ys, last⟩, hys, hxs⟩
      cases hxs
      rw [List.length_cons, List.length_cons, ih hys]

/-! ## Runs of the programs of trees -/

/-- The machine after the value of a tree has been put on its stack. -/
def pushResult (machine : Machine) (result : Float × Nat) : Machine :=
  ⟨result.1 :: machine.stack, result.2⟩

def pushResults (machine : Machine) (results : List Float × Nat) : Machine :=
  ⟨results.1.reverse ++ machine.stack, results.2⟩

theorem run_concat (environment : Environment) (machine : Machine) (program : Program)
    (instruction : Instruction) :
    machine.run environment (program ++ [instruction]) =
      machine.run environment program >>= fun next => next.step environment instruction := by
  rw [Machine.run_eq_foldlM, Machine.run_eq_foldlM]
  exact Sequencing.foldlM_concat _ machine program instruction

theorem step_unary (environment : Environment) (machine : Machine) {op : Operator}
    (one : op.operandCount = 1) (result : Float × Nat) :
    (pushResult machine result).step environment (.operator op) =
      (op.apply [result.1]).map fun value => pushResult machine (value, result.2) := by
  have htake : Machine.take? op.operandCount (pushResult machine result).stack =
      some ([result.1], machine.stack) := by
    simp [one, pushResult, Machine.take?_eq]
  rw [Machine.step, Machine.value, htake]
  dsimp only
  cases op.apply [result.1] <;> rfl

theorem step_binary (environment : Environment) (machine : Machine) {op : Operator}
    (two : op.operandCount = 2) (left right : Float × Nat) :
    (pushResult (pushResult machine left) right).step environment (.operator op) =
      (op.apply [left.1, right.1]).map fun value => pushResult machine (value, right.2) := by
  have htake : Machine.take? op.operandCount
      (pushResult (pushResult machine left) right).stack =
        some ([left.1, right.1], machine.stack) := by
    simp [two, pushResult, Machine.take?_eq]
  rw [Machine.step, Machine.value, htake]
  dsimp only
  cases op.apply [left.1, right.1] <;> rfl

theorem step_call (environment : Environment) (machine : Machine) (function : String)
    (results : List Float × Nat) :
    (pushResults machine results).step environment (.call function results.1.length) =
      ((callValue environment results.2 function results.1).mapError .evaluation).map
        (pushResult machine) := by
  have htake : Machine.take? results.1.length (pushResults machine results).stack =
      some (results.1, machine.stack) := by
    simp [pushResults, Machine.take?_eq]
  have hdraw : (pushResults machine results).draw environment =
      environment.draws.number results.2 := rfl
  rw [Machine.step, Machine.value, Machine.call, callValue]
  cases hnamed : Builtin.named? function with
  | none => rfl
  | some builtin =>
      dsimp only
      rw [htake]
      dsimp only
      rw [hdraw]
      cases haccepts : builtin.arity.accepts results.1.length with
      | true =>
          cases builtin.apply environment.unit (environment.draws.number results.2)
            results.1 <;> rfl
      | false =>
          rw [Builtin.apply_of_refused _ _ haccepts]
          rfl

theorem run_flatMap_program {environment : Environment} {expressions : List Expression}
    {machine : Machine}
    (h : ∀ expression ∈ expressions, ∀ machine : Machine,
      machine.run environment expression.program =
        (expression.value environment machine.drawn).map (pushResult machine)) :
    machine.run environment (expressions.flatMap program) =
      (values environment machine.drawn expressions).map (pushResults machine) := by
  induction expressions generalizing machine with
  | nil => rfl
  | cons first rest ih =>
      have hrest := fun expression hmem => h expression (List.mem_cons_of_mem first hmem)
      rw [List.flatMap_cons, Machine.run_append, h first List.mem_cons_self, values]
      rw [Sequencing.map_bind, Sequencing.bind_map]
      apply bind_congr
      intro result
      rw [ih hrest, Sequencing.bind_map]
      show (values environment result.2 rest).map _ = _
      cases values environment result.2 rest with
      | error failure => rfl
      | ok results =>
          simp [Except.map, pushResults, pushResult, Sequencing.ok_bind, pure, Except.pure]

theorem run_program (environment : Environment) (expression : Expression) (machine : Machine) :
    machine.run environment expression.program =
      (expression.value environment machine.drawn).map (pushResult machine) := by
  induction expression generalizing machine with
  | number value => rfl
  | name text =>
      show machine.run environment ([] ++ [.name text]) = _
      rw [run_concat, Machine.run_nil, Sequencing.ok_bind, Machine.step, Machine.value, value]
      cases environment.lookup? text <;> rfl
  | unary op one operand ih =>
      rw [program, run_concat, ih, value, Sequencing.map_bind, Sequencing.bind_map]
      apply bind_congr
      intro result
      rcases result with ⟨x, drawn⟩
      rw [step_unary environment machine one]
      dsimp only
      cases op.apply [x] <;> rfl
  | binary op two left right ihLeft ihRight =>
      rw [program, run_concat, Machine.run_append, ihLeft, value, Sequencing.map_bind]
      rw [Sequencing.bind_map, bind_assoc]
      apply bind_congr
      intro result
      rcases result with ⟨x, between⟩
      rw [ihRight, Sequencing.map_bind, Sequencing.bind_map]
      apply bind_congr
      intro result
      rcases result with ⟨y, drawn⟩
      rw [step_binary environment machine two]
      dsimp only
      cases op.apply [x, y] <;> rfl
  | call function arguments ih =>
      rw [program_call, run_concat, run_flatMap_program ih, value, Sequencing.map_bind]
      rw [Sequencing.bind_map]
      cases hvalues : values environment machine.drawn arguments with
      | error failure => rfl
      | ok results =>
          rw [Sequencing.ok_bind, Sequencing.ok_bind, ← length_values hvalues, step_call]

theorem evaluate_program (environment : Environment) (expression : Expression) :
    expression.program.evaluate environment = expression.evaluate environment := by
  rw [Program.evaluate_eq, run_program, evaluate, Sequencing.map_bind]
  apply bind_congr
  intro result
  rcases result with ⟨x, drawn⟩
  show (Except.mapError _ (if Double.isFinite x then _ else _)) = _
  dsimp only
  cases Double.isFinite x <;> rfl

/-! ## Programs with a value -/

theorem existsUnique_of_evaluate {environment : Environment} {program : Program} {value : Float}
    (h : program.evaluate environment = .ok value) :
    ∃ expression : Expression, expression.program = program ∧
      (∀ other : Expression, other.program = program → other = expression) ∧
      expression.evaluate environment = .ok value := by
  rcases exists_program_of_depth? (Program.depth?_of_evaluate h) with ⟨expression, rfl⟩
  refine ⟨expression, rfl, ?_, ?_⟩
  · intro other hother
    exact program_injective hother
  · rw [← evaluate_program]
    exact h

theorem evaluate_eq_ok {environment : Environment} {expression : Expression} {x : Float} :
    expression.evaluate environment = .ok x ↔
      (∃ drawn, expression.value environment 0 = .ok (x, drawn)) ∧ Double.isFinite x = true := by
  rw [evaluate, Sequencing.bind_eq_ok]
  constructor
  · intro h
    rcases h with ⟨⟨y, drawn⟩, hvalue, hfinite⟩
    dsimp only at hfinite
    split at hfinite
    · cases hfinite
      exact ⟨⟨drawn, hvalue⟩, ‹_›⟩
    · cases hfinite
  · intro h
    rcases h with ⟨⟨drawn, hvalue⟩, hfinite⟩
    refine ⟨(x, drawn), hvalue, ?_⟩
    dsimp only
    rw [if_pos hfinite]
    rfl

/-- A run computes the value of a tree, and has no value without one. -/
theorem evaluate_eq_tree_value (environment : Environment) :
    (∀ expression : Expression,
      expression.program.evaluate environment = expression.evaluate environment) ∧
    ∀ (program : Program) (x : Float), program.evaluate environment = .ok x ↔
      ∃ expression : Expression, expression.program = program ∧
        (∀ other : Expression, other.program = program → other = expression) ∧
        (∃ drawn, expression.value environment 0 = .ok (x, drawn)) ∧
        Double.isFinite x = true := by
  constructor
  · exact evaluate_program environment
  · intro program x
    constructor
    · intro h
      rcases existsUnique_of_evaluate h with ⟨expression, hprogram, hunique, hvalue⟩
      exact ⟨expression, hprogram, hunique, evaluate_eq_ok.mp hvalue⟩
    · intro h
      rcases h with ⟨expression, hprogram, _, hvalue⟩
      rw [← hprogram, evaluate_program]
      exact evaluate_eq_ok.mpr hvalue

end Expression
end Calculator
