import Calculator.Proofs.ChainedEvaluation
import Calculator.Proofs.StructuralFault

/-!
# Independence of what is not mentioned

An evaluation depends on the previous answer only if the expression names it, on the
unit of angles only if a trigonometric function is called, and on the random numbers only
if `rand` is.  The arrangement of the tokens keeps the names that they mention, so it is
enough to follow two runs of one program: where every name that is mentioned means the
same in both environments, they have the same values on the stack after each instruction,
or stop at the same instruction with the same failure.
-/

namespace Calculator

/-! ## What functions look at -/

namespace Builtin

def angular : List Builtin :=
  [sin, cos, tan, asin, acos, atan]

theorem apply_of_not_angular {function : Builtin} (h : function ∉ angular)
    (unit other : AngleUnit) (draw : Float) (arguments : List Float) :
    function.apply other draw arguments = function.apply unit draw arguments := by
  have hvalue : function.value? other draw arguments = function.value? unit draw arguments := by
    rcases arguments with _ | ⟨x, _ | ⟨y, _ | ⟨z, rest⟩⟩⟩ <;> cases function <;> first
      | rfl
      | exact absurd (by decide) h
  rw [apply, hvalue, apply]

end Builtin

/-- Whether a name means the same in two environments, whatever is drawn in them. -/
def Mention.Unaffected (environment other : Environment) : Mention → Prop
  | reads name => other.lookup? name = environment.lookup? name
  | calls name => name ≠ "rand" ∧
      (other.unit = environment.unit ∨ ∀ function ∈ Builtin.angular, name ≠ function.name)

theorem Builtin.apply_of_unaffected {environment other : Environment} {name : String}
    {function : Builtin} (hnamed : named? name = some function)
    (h : (Mention.calls name).Unaffected environment other) (draw draw' : Float)
    (arguments : List Float) :
    function.apply other.unit draw' arguments = function.apply environment.unit draw arguments := by
  have hname := name_of_named? hnamed
  have hrand : function ≠ .rand := by
    intro heq
    rw [heq] at hname
    exact h.1 hname.symm
  rw [apply_of_ne_rand hrand other.unit draw draw']
  rcases h.2 with hunit | hangular
  · rw [hunit]
  · have hmem : function ∉ angular := by
      intro hmem
      exact hangular function hmem hname.symm
    exact apply_of_not_angular hmem environment.unit other.unit draw arguments

/-! ## Runs side by side -/

namespace Machine

open Sequencing (Agree)

variable {environment other : Environment}

theorem agree_value {machine machine' : Machine} (hstack : machine.stack = machine'.stack)
    {instruction : Instruction}
    (h : ∀ mention ∈ instruction.mention?, mention.Unaffected environment other) :
    Agree (fun result result' => result.1 = result'.1 ∧ result.2.stack = result'.2.stack)
      (machine.value environment instruction) (machine'.value other instruction) := by
  cases instruction with
  | number value => exact ⟨rfl, hstack⟩
  | name text =>
      have hlookup : other.lookup? text = environment.lookup? text := h (.reads text) rfl
      rw [value, value, hlookup]
      cases environment.lookup? text with
      | none => exact rfl
      | some value => exact ⟨rfl, hstack⟩
  | operator op =>
      rw [value, value, ← hstack]
      cases take? op.operandCount machine.stack with
      | none => exact rfl
      | some taken =>
          dsimp only
          cases op.apply taken.1 with
          | ok value => exact ⟨rfl, rfl⟩
          | error failure => exact rfl
  | call name count =>
      have hcalls : (Mention.calls name).Unaffected environment other := h (.calls name) rfl
      rw [value, value, call, call, ← hstack]
      cases hnamed : Builtin.named? name with
      | none => exact rfl
      | some function =>
          dsimp only
          cases take? count machine.stack with
          | none => exact rfl
          | some taken =>
              dsimp only
              rw [Builtin.apply_of_unaffected hnamed hcalls (machine.draw environment)]
              cases function.apply environment.unit (machine.draw environment) taken.1 with
              | ok value => exact ⟨rfl, rfl⟩
              | error failure => exact rfl

theorem agree_step {machine machine' : Machine} (hstack : machine.stack = machine'.stack)
    {instruction : Instruction}
    (h : ∀ mention ∈ instruction.mention?, mention.Unaffected environment other) :
    Agree (fun next next' => next.stack = next'.stack)
      (machine.step environment instruction) (machine'.step other instruction) := by
  apply (agree_value hstack h).bind
  intro result result' _ _ hresult
  exact congrArg₂ List.cons hresult.1 hresult.2

theorem agree_run {machine machine' : Machine} (hstack : machine.stack = machine'.stack)
    {program : Program}
    (h : ∀ mention ∈ program.mentions, mention.Unaffected environment other) :
    Agree (fun last last' => last.stack = last'.stack)
      (machine.run environment program) (machine'.run other program) := by
  induction program generalizing machine machine' with
  | nil => exact hstack
  | cons instruction program ih =>
      rw [Program.forall_mem_mentions_cons] at h
      rw [run_cons, run_cons]
      apply (agree_step hstack h.1).bind
      intro next next' _ _ hnext
      exact ih hnext h.2

end Machine

theorem Program.evaluate_of_unaffected {environment other : Environment} {program : Program}
    (h : ∀ mention ∈ program.mentions, mention.Unaffected environment other) :
    program.evaluate environment = program.evaluate other := by
  apply Sequencing.Agree.eq
  apply (Machine.agree_run rfl h).bind
  intro last last' _ _ hlast
  have hresult : last.result = last'.result := by
    rw [Machine.result, Machine.result, hlast]
  rw [hresult]
  cases last'.result with
  | ok x => exact rfl
  | error error => exact rfl

/-! ## From tokens to texts -/

theorem Role.name_mem_of_reads {tokens : List Token} {name : String}
    (h : .reads name ∈ mentions (ofTokens tokens)) : .name name ∈ tokens := by
  induction tokens using pieceInduction with
  | nil => cases h
  | single token rest hopens ih =>
      rw [ofTokens_single hopens, mentions_cons, List.mem_append, Option.mem_toList] at h
      rcases h with halone | hrest
      · cases token with
        | name text =>
            rw [alone] at halone
            split at halone <;> cases halone
            exact List.mem_cons_self
        | number | operator | suffix | openParen | closeParen | comma | blank => cases halone
      · exact List.mem_cons_of_mem token (ih hrest)
  | callee text rest hnone ih =>
      rw [ofTokens_callee hnone, mentions_cons, List.mem_append, Option.mem_toList] at h
      rcases h with hcall | hrest
      · cases hcall
      · exact List.mem_cons_of_mem _ (List.mem_cons_of_mem _ (ih hrest))

instance : DecidablePred CallsRandom := fun tokens =>
  inferInstanceAs (Decidable (_ <:+: tokens))

def CallsAngular (tokens : List Token) : Prop :=
  ∃ function ∈ Builtin.angular, [.name function.name, .openParen] <:+: tokens

instance : DecidablePred CallsAngular := fun tokens =>
  inferInstanceAs (Decidable (∃ function ∈ Builtin.angular, _ <:+: tokens))

/-- Whether a text has tokens of which something is true. -/
def Says (p : List Token → Prop) (source : String) : Prop :=
  ∃ tokens, tokenize source = .ok tokens ∧ p tokens

theorem not_says_iff {p : List Token → Prop} {source : String} {tokens : List Token}
    (h : tokenize source = .ok tokens) : ¬ Says p source ↔ ¬ p tokens := by
  apply not_congr
  constructor
  · intro hsays
    rcases hsays with ⟨tokens', htokens, hp⟩
    rw [h] at htokens
    cases htokens
    exact hp
  · intro hp
    exact ⟨tokens, h, hp⟩

instance (p : List Token → Prop) [DecidablePred p] (source : String) :
    Decidable (Says p source) :=
  match htokens : tokenize source with
  | .ok tokens => decidable_of_iff (p tokens) (not_iff_not.mp (not_says_iff htokens)).symm
  | .error _ => isFalse (by simp [Says, htokens])

theorem evaluate_of_unaffected {environment other : Environment} {source : String}
    (h : ∀ tokens, tokenize source = .ok tokens →
      ∀ mention ∈ Role.mentions (Role.ofTokens tokens), mention.Unaffected environment other) :
    evaluate environment source = evaluate other source := by
  rw [evaluate_eq, evaluate_eq]
  cases htokens : tokenize source with
  | error error => rfl
  | ok tokens =>
      show (arrange tokens).mapError Failure.arrangement >>= _ =
        (arrange tokens).mapError Failure.arrangement >>= _
      cases hprogram : arrange tokens with
      | error error => rfl
      | ok program =>
          have hmentions := mentions_perm_of_arrange (blank_not_mem_of_tokenize htokens) hprogram
          apply Program.evaluate_of_unaffected
          intro mention hmem
          exact h tokens htokens mention (hmentions.mem_iff.mpr hmem)

theorem evaluate_of_not_says {source : String} {environment other : Environment}
    (hrand : ¬ Says CallsRandom source)
    (hanswer : environment.answer = other.answer ∨ ¬ Says (.name "ans" ∈ ·) source)
    (hunit : environment.unit = other.unit ∨ ¬ Says CallsAngular source) :
    evaluate environment source = evaluate other source := by
  apply evaluate_of_unaffected
  intro tokens htokens mention hmem
  cases mention with
  | reads name =>
      show other.lookup? name = environment.lookup? name
      rw [Environment.lookup?, Environment.lookup?]
      rcases hanswer with hsame | hans
      · rw [hsame]
      · rw [not_says_iff htokens] at hans
        have hname : name ≠ "ans" := by
          intro heq
          rw [heq] at hmem
          exact hans (Role.name_mem_of_reads hmem)
        rw [if_neg hname, if_neg hname]
  | calls name =>
      have hcall := Role.infix_of_calls hmem
      rw [not_says_iff htokens] at hrand
      constructor
      · intro heq
        rw [heq] at hcall
        exact hrand hcall
      · rcases hunit with hsame | hangular
        · exact Or.inl hsame.symm
        · rw [not_says_iff htokens] at hangular
          refine Or.inr ?_
          intro function hfunction heq
          rw [heq] at hcall
          exact hangular ⟨function, hfunction, hcall⟩

/-! ## Failures of the text -/

def Failure.OfText : Failure → Prop
  | lexical _ | arrangement _ => True
  | evaluation _ | domain _ => False

theorem Program.not_ofText_of_evaluate {environment : Environment} {program : Program}
    {failure : Failure} (h : program.evaluate environment = .error failure) :
    ¬ failure.OfText := by
  rcases program.evaluate_cases environment with ⟨error, hresult⟩ | ⟨error, _, hresult⟩ |
    ⟨_, ⟨x, hresult⟩ | ⟨x, hresult⟩⟩
  · rw [hresult] at h
    cases h
    exact id
  · rw [hresult] at h
    cases h
    exact id
  · rw [hresult] at h
    cases h
  · rw [hresult] at h
    cases h
    exact id

theorem evaluate_eq_error_of_ofText {environment : Environment} {source : String}
    {failure : Failure} (htext : failure.OfText) (h : evaluate environment source = .error failure)
    (other : Environment) : evaluate other source = .error failure := by
  rw [evaluate_eq] at h ⊢
  rcases Sequencing.bind_eq_error.mp h with htokens | ⟨tokens, htokens, hrest⟩
  · exact Sequencing.bind_eq_error.mpr (Or.inl htokens)
  · rw [htokens, Sequencing.ok_bind]
    rcases Sequencing.bind_eq_error.mp hrest with hprogram | ⟨program, _, hvalue⟩
    · exact Sequencing.bind_eq_error.mpr (Or.inl hprogram)
    · exact absurd htext (Program.not_ofText_of_evaluate hvalue)

/-! ## Evaluations in two environments -/

/-- Without random numbers, an evaluation depends on nothing that its text does not mention. -/
theorem evaluate_eq_of_not_mentioned {source : String} (hrand : ¬ Says CallsRandom source) :
    (∀ (environment other : Environment) (failure : Failure), failure.OfText →
      (evaluate environment source = .error failure ↔ evaluate other source = .error failure)) ∧
    (¬ Says (.name "ans" ∈ ·) source → ∀ unit answer answer' draws draws',
      evaluate ⟨unit, answer, draws⟩ source = evaluate ⟨unit, answer', draws'⟩ source) ∧
    (¬ Says CallsAngular source → ∀ answer draws draws',
      evaluate ⟨.radians, answer, draws⟩ source = evaluate ⟨.degrees, answer, draws'⟩ source) := by
  refine ⟨?_, ?_, ?_⟩
  · intro environment other failure htext
    constructor
    · intro h
      exact evaluate_eq_error_of_ofText htext h other
    · intro h
      exact evaluate_eq_error_of_ofText htext h environment
  · intro hans unit answer answer' draws draws'
    exact evaluate_of_not_says hrand (Or.inr hans) (Or.inl rfl)
  · intro hangular answer draws draws'
    exact evaluate_of_not_says hrand (Or.inl rfl) (Or.inr hangular)

theorem evaluate_eq_of_not_mentioned_of_root :
    ¬ Says CallsRandom "sqrt(4)-e!" ∧ ¬ Says (.name "ans" ∈ ·) "sqrt(4)-e!" ∧
      ¬ Says CallsAngular "sqrt(4)-e!" ∧
      evaluate ⟨.radians, 0, default⟩ "sqrt(4)-e!" =
        evaluate ⟨.radians, 5, .ofStream fun _ => 0.5⟩ "sqrt(4)-e!" ∧
      evaluate ⟨.radians, 5, default⟩ "sqrt(4)-e!" =
        evaluate ⟨.degrees, 5, .ofStream fun _ => 0.5⟩ "sqrt(4)-e!" := by
  have hrand : ¬ Says CallsRandom "sqrt(4)-e!" := by decide +kernel
  have hans : ¬ Says (.name "ans" ∈ ·) "sqrt(4)-e!" := by decide +kernel
  have hangular : ¬ Says CallsAngular "sqrt(4)-e!" := by decide +kernel
  have hequal := evaluate_eq_of_not_mentioned hrand
  exact ⟨hrand, hans, hangular, hequal.2.1 hans _ _ _ _ _, hequal.2.2 hangular _ _ _⟩

end Calculator
