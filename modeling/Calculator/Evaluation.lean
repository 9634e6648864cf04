import Calculator.Arrangement
import Calculator.Lexeme
import Calculator.Machine
import Calculator.Record

/-!
# Evaluation

An expression is cut into tokens, the tokens are arranged into a program, and the
program is run.  One pass makes the value, or the first failure, and the records of
what was done up to there.  `evaluate` is the value or the failure, and `records` the
account of it.
-/

namespace Calculator

/-! ## Programs -/

/-- The records of a program's run, and the value that it leaves or the first failure. -/
def Program.evaluation (environment : Environment) (program : Program) :
    List Record × Except Failure Float :=
  let (steps, last) := Machine.start.trace environment program
  let outcome := last >>= fun machine => machine.result.mapError .evaluation
  (steps.map Record.ofStep ++ Record.ofResult outcome, outcome)

def Program.evaluate (environment : Environment) (program : Program) : Except Failure Float :=
  (program.evaluation environment).2

/-! ## Expressions -/

def evaluation (environment : Environment) (source : String) :
    List Record × Except Failure Float :=
  match tokenize source with
  | .error error => ([], .error (.lexical error))
  | .ok tokens =>
      match arrange tokens with
      | .error error => ([.tokenized source tokens], .error (.arrangement error))
      | .ok program =>
          let (entries, outcome) := program.evaluation environment
          (.tokenized source tokens :: .arranged program :: entries, outcome)

def evaluate (environment : Environment) (source : String) : Except Failure Float :=
  (evaluation environment source).2

def records (environment : Environment) (source : String) : List Record :=
  (evaluation environment source).1

/-! ## Stages in sequence -/

theorem Program.evaluate_eq (environment : Environment) (program : Program) :
    program.evaluate environment = Machine.start.run environment program >>= fun machine =>
      machine.result.mapError .evaluation := rfl

theorem evaluate_eq (environment : Environment) (source : String) :
    evaluate environment source = (tokenize source).mapError .lexical >>= fun tokens =>
      (arrange tokens).mapError .arrangement >>= fun program =>
        program.evaluate environment := by
  rw [evaluate, evaluation]
  cases tokenize source with
  | error error => rfl
  | ok tokens =>
      show _ = (arrange tokens).mapError Failure.arrangement >>= fun program =>
        program.evaluate environment
      dsimp only
      cases arrange tokens with
      | error error => rfl
      | ok program => rfl

theorem evaluation_of_arrange {source : String} {tokens : List Token} {program : Program}
    (htokens : tokenize source = .ok tokens) (hprogram : arrange tokens = .ok program)
    (environment : Environment) :
    evaluation environment source =
      (.tokenized source tokens :: .arranged program :: (program.evaluation environment).1,
        program.evaluate environment) := by
  rw [evaluation, htokens]
  dsimp only
  rw [hprogram]
  rfl

theorem evaluate_of_arrange {source : String} {tokens : List Token} {program : Program}
    (htokens : tokenize source = .ok tokens) (hprogram : arrange tokens = .ok program)
    (environment : Environment) :
    evaluate environment source = program.evaluate environment := by
  rw [evaluate, evaluation_of_arrange htokens hprogram]

theorem evaluate_eq_ok {environment : Environment} {source : String} {value : Float} :
    evaluate environment source = .ok value ↔
      ∃ tokens program, tokenize source = .ok tokens ∧ arrange tokens = .ok program ∧
        program.evaluate environment = .ok value := by
  constructor
  · intro h
    rw [evaluate, evaluation] at h
    split at h
    · cases h
    · rename_i tokens htokens
      split at h
      · cases h
      · rename_i program hprogram
        exact ⟨tokens, program, htokens, hprogram, h⟩
  · intro h
    rcases h with ⟨tokens, program, htokens, hprogram, hvalue⟩
    rw [evaluate_of_arrange htokens hprogram, hvalue]

end Calculator
