import Calculator.Proofs.SurplusValues
import Calculator.Proofs.Surroundings

/-!
# Records of a run

The records of an evaluation tell how its value came about.  A run of a program goes through
steps, an instruction each time and the value that it puts on the stack, and the trace of a
run is what `Steps` says without a trace.  There is one record for each step, in order and up
to the first failure, and a last one for the result if there is a result.  Since a single
value is left at the end, it is the value of the last step.
-/

namespace Calculator

/-! ## Steps of a run -/

namespace Machine

/--
The steps of a run: the first instructions of a program, each with the value that it puts on
the stack, up to the end of the program or to an instruction that fails.
-/
structure Steps (environment : Environment) (machine : Machine) (program : Program)
    (steps : List (Instruction × Float)) : Prop where
  instructions : steps.map Prod.fst <+: program
  values : ∀ before instruction value after, steps = before ++ (instruction, value) :: after →
    ∃ next, machine.run environment (before.map Prod.fst ++ [instruction]) = .ok next ∧
      next.stack.head? = some value
  failure : ∀ instruction after, program = steps.map Prod.fst ++ instruction :: after →
    ∃ failure, machine.run environment (steps.map Prod.fst ++ [instruction]) = .error failure

variable {environment : Environment} {machine next last : Machine} {instruction : Instruction}
  {program : Program} {value : Float} {steps : List (Instruction × Float)}

theorem step_of_value (h : machine.value environment instruction = .ok (value, next)) :
    machine.step environment instruction = .ok (next.push value) := by
  rw [step, h]
  rfl

theorem run_cons_of_value (h : machine.value environment instruction = .ok (value, next))
    (program : Program) :
    machine.run environment (instruction :: program) =
      (next.push value).run environment program := by
  rw [run_cons, step_of_value h]
  rfl

theorem run_cons_of_error {failure : Failure}
    (h : machine.value environment instruction = .error failure) (program : Program) :
    machine.run environment (instruction :: program) = .error failure := by
  rw [run_cons, step, h]
  rfl

theorem steps_nil (environment : Environment) (machine : Machine) :
    machine.Steps environment [] [] where
  instructions := List.prefix_rfl
  values := by
    intro before instruction value after h
    cases before <;> cases h
  failure := by
    intro instruction after h
    cases h

theorem steps_of_error {failure : Failure}
    (h : machine.value environment instruction = .error failure) (program : Program) :
    machine.Steps environment (instruction :: program) [] where
  instructions := List.nil_prefix
  values := by
    intro before instruction value after h
    cases before <;> cases h
  failure := by
    intro first after hprogram
    cases hprogram
    exact ⟨failure, run_cons_of_error h []⟩

theorem Steps.cons (hsteps : (next.push value).Steps environment program steps)
    (h : machine.value environment instruction = .ok (value, next)) :
    machine.Steps environment (instruction :: program) ((instruction, value) :: steps) where
  instructions := (List.prefix_cons_inj instruction).mpr hsteps.instructions
  values := by
    intro before other otherValue after heq
    cases before with
    | nil =>
        cases heq
        exact ⟨next.push value, run_cons_of_value h [], rfl⟩
    | cons first before =>
        cases heq
        rw [List.map_cons, List.cons_append, run_cons_of_value h]
        exact hsteps.values before other otherValue after rfl
  failure := by
    intro other after heq
    cases heq
    rw [List.map_cons, List.cons_append, run_cons_of_value h]
    exact hsteps.failure other after rfl

theorem steps_trace (environment : Environment) (machine : Machine) (program : Program) :
    machine.Steps environment program (machine.trace environment program).1 := by
  induction program generalizing machine with
  | nil => exact steps_nil environment machine
  | cons instruction program ih =>
      rw [trace_cons]
      cases hvalue : machine.value environment instruction with
      | error failure => exact steps_of_error hvalue program
      | ok result => exact (ih (result.2.push result.1)).cons hvalue

theorem Steps.instructions_eq (h : machine.Steps environment program steps)
    (hrun : machine.run environment program = .ok last) : steps.map Prod.fst = program := by
  rcases h.instructions with ⟨rest, hrest⟩
  cases rest with
  | nil => rw [← hrest, List.append_nil]
  | cons instruction after =>
      rcases h.failure instruction after hrest.symm with ⟨failure, hfailure⟩
      rw [← hrest, List.append_cons, run_append, hfailure] at hrun
      cases hrun

theorem Steps.last_value (h : machine.Steps environment program steps)
    (hrun : machine.run environment program = .ok last) (hne : program ≠ []) :
    steps.getLast?.map Prod.snd = last.stack.head? := by
  have hinstructions := h.instructions_eq hrun
  rcases List.eq_nil_or_concat steps with rfl | ⟨before, ⟨instruction, value⟩, rfl⟩
  · exact absurd hinstructions.symm hne
  · rcases h.values before instruction value [] List.concat_eq_append with ⟨next, hnext, hhead⟩
    rw [← hinstructions, List.concat_eq_append, List.map_append] at hrun
    replace hrun : machine.run environment (before.map Prod.fst ++ [instruction]) = _ := hrun
    rw [hnext] at hrun
    cases hrun
    rw [hhead, List.concat_eq_append, List.getLast?_append]
    rfl

end Machine

/-! ## Records of an evaluation -/

theorem Machine.Steps.of_evaluate {environment : Environment} {program : Program} {value : Float}
    {steps : List (Instruction × Float)} (h : Machine.start.Steps environment program steps)
    (hvalue : program.evaluate environment = .ok value) :
    steps.length = program.length ∧ steps.getLast?.map Prod.snd = some value := by
  rcases (Program.evaluate_eq_ok.mp hvalue).1 with ⟨last, hrun, hstack⟩
  have hne : program ≠ [] := by
    rintro rfl
    cases hrun
    cases hstack
  constructor
  · rw [← h.instructions_eq hrun, List.length_map]
  · rw [h.last_value hrun hne, hstack]
    rfl

/--
The lines that are written during an evaluation: those of the tokens and of the program as far
as there are any, one for each step of the run, and one for the result if there is a result.
-/
theorem lines_of_evaluation (environment : Environment) (source : String) :
    (∀ error, tokenize source = .error error → records environment source = []) ∧
    (∀ tokens error, tokenize source = .ok tokens → arrange tokens = .error error →
      (records environment source).map Record.line =
        [("DEBUG", s!"tokenized {Record.quoted source} into {Token.listingAll tokens}")]) ∧
    ∀ tokens program, tokenize source = .ok tokens → arrange tokens = .ok program →
      ∃ steps, Machine.start.Steps environment program steps ∧
        (records environment source).map Record.line =
          [("DEBUG", s!"tokenized {Record.quoted source} into {Token.listingAll tokens}"),
            ("DEBUG", s!"rpn: {program.text}")] ++
          steps.map (fun step =>
            ("TRACE", s!"{step.1.text} -> {NumberText.exactText step.2}")) ++
          (evaluate environment source).toOption.toList.map (fun value =>
            ("DEBUG", s!"result: {NumberText.exactText value}")) ∧
        ∀ value, evaluate environment source = .ok value →
          steps.length = program.length ∧ steps.getLast?.map Prod.snd = some value := by
  refine ⟨?_, ?_, ?_⟩
  · intro error htokens
    rw [records, evaluation, htokens]
  · intro tokens error htokens hprogram
    rw [records, evaluation, htokens]
    dsimp only
    rw [hprogram]
    rfl
  · intro tokens program htokens hprogram
    have hsteps := Machine.steps_trace environment .start program
    refine ⟨_, hsteps, ?_, ?_⟩
    · rw [records, evaluate, evaluation_of_arrange htokens hprogram]
      show _ :: _ :: List.map _ (List.map Record.ofStep _ ++
        Record.ofResult (program.evaluate environment)) = _
      rw [List.map_append, List.map_map]
      cases program.evaluate environment <;> rfl
    · intro value hvalue
      rw [evaluate_of_arrange htokens hprogram] at hvalue
      exact hsteps.of_evaluate hvalue

theorem lines_of_evaluation_of_factorial :
    records {} "2$" = [] ∧
    (records {} "2)").map Record.line =
      [("DEBUG", "tokenized \"2)\" into [Number(2.0), RParen]")] ∧
    (records ⟨.radians, 3, default⟩ "2*ans!-7").map Record.line =
      [("DEBUG", "tokenized \"2*ans!-7\" into [Number(2.0), Operator('*'), " ++
          "Identifier(\"ans\"), Postfix('!'), Operator('-'), Number(7.0)]"),
        ("DEBUG", "rpn: 2 ans ! * 7 -"),
        ("TRACE", "2 -> 2"), ("TRACE", "ans -> 3"), ("TRACE", "! -> 6"),
        ("TRACE", "* -> 12"), ("TRACE", "7 -> 7"), ("TRACE", "- -> 5"),
        ("DEBUG", "result: 5")] ∧
    ∃ program steps, arrange [.number 2, .operator '*', .name "ans", .suffix '!', .operator '-',
        .number 7] = .ok program ∧
      Machine.start.Steps ⟨.radians, 3, default⟩ program steps ∧
      steps.length = 6 ∧ steps.getLast?.map Prod.snd = some 5 := by
  have hstuck : tokenize "2$" = .error (.unexpected '$' 1) := by decide +kernel
  have hunopened : tokenize "2)" = .ok [.number 2, .closeParen] := by decide +kernel
  have htokens : tokenize "2*ans!-7" = .ok [.number 2, .operator '*', .name "ans", .suffix '!',
      .operator '-', .number 7] := by decide +kernel
  have hvalue : evaluate ⟨.radians, 3, default⟩ "2*ans!-7" = .ok 5 :=
    Sequencing.eq_ok_of_toOption (by decide +kernel)
  have htext : (Record.tokenized "2)" [.number 2, .closeParen]).message =
      "tokenized \"2)\" into [Number(2.0), RParen]" := by decide +kernel
  refine ⟨(lines_of_evaluation {} "2$").1 _ hstuck, ?_, by decide +kernel, ?_⟩
  · rw [(lines_of_evaluation {} "2)").2.1 _ _ hunopened rfl]
    exact congrArg (fun text => [("DEBUG", text)]) htext
  · rcases (lines_of_evaluation ⟨.radians, 3, default⟩ "2*ans!-7").2.2 _ _ htokens rfl with
      ⟨steps, hsteps, _, hlast⟩
    exact ⟨_, steps, rfl, hsteps, hlast 5 hvalue⟩

end Calculator
