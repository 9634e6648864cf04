import Calculator.Evaluation
import Calculator.Proofs.ExactText
import Calculator.Proofs.Sequencing

/-!
# The text of a program

A program is written as the texts of its instructions with single spaces between them.  Two
programs may have one text: a name may be `neg` or `inf`, or contain a space.  This is not so
for programs that have a value, because a run carries out an instruction with a name only if
the name means something.  The texts of the instructions are then of four kinds that are told
apart by their characters, and within each kind the text determines the instruction.

The main statement is `Program.eq_of_text_of_evaluate`.
-/

namespace Calculator

/-! ## Instructions that can be carried out -/

namespace Instruction

/-- The instructions that a run can carry out, without those that push a NaN. -/
inductive Meaningful : Instruction → Prop where
  | number {value : Float} : Double.isNaN value = false → Meaningful (.number value)
  | answer : Meaningful (.name "ans")
  | operator (op : Operator) : Meaningful (.operator op)
  | call (function : Builtin) (count : Nat) : Meaningful (.call function.name count)

end Instruction

theorem Environment.eq_of_lookup? {environment : Environment} {name : String} {value : Float}
    (h : environment.lookup? name = some value) : name = "ans" := by
  unfold lookup? at h
  split at h
  · assumption
  · cases h

section

variable {environment : Environment} {machine last : Machine} {instruction : Instruction}
  {program : Program}

theorem Machine.meaningful_of_value {result : Float × Machine}
    (h : machine.value environment instruction = .ok result)
    (hnumber : ∀ x, instruction = .number x → Double.isNaN x = false) :
    instruction.Meaningful := by
  cases instruction with
  | number x => exact .number (hnumber x rfl)
  | name text =>
      rw [Machine.value] at h
      split at h
      · rename_i hlookup
        rw [Environment.eq_of_lookup? hlookup]
        exact .answer
      · cases h
  | operator op => exact .operator op
  | call name count =>
      rw [Machine.value, Sequencing.mapError_eq_ok, Machine.call] at h
      split at h
      · cases h
      · rename_i function hnamed
        rw [← Builtin.name_of_named? hnamed]
        exact .call function count

theorem Machine.meaningful_of_run (h : machine.run environment program = .ok last)
    (hnumbers : ∀ x, .number x ∈ program → Double.isNaN x = false) :
    ∀ instruction ∈ program, instruction.Meaningful := by
  induction program generalizing machine with
  | nil => simp
  | cons first rest ih =>
      rw [Machine.run_cons] at h
      rcases Sequencing.bind_eq_ok.mp h with ⟨next, hstep, hrest⟩
      rcases Sequencing.bind_eq_ok.mp hstep with ⟨result, hvalue, _⟩
      rw [List.forall_mem_cons]
      constructor
      · apply Machine.meaningful_of_value hvalue
        rintro x rfl
        exact hnumbers x List.mem_cons_self
      · exact ih hrest fun x hx => hnumbers x (List.mem_cons_of_mem _ hx)

theorem Program.meaningful_of_evaluate {v : Float} (h : program.evaluate environment = .ok v)
    (hnumbers : ∀ x, .number x ∈ program → Double.isNaN x = false) :
    program ≠ [] ∧ ∀ instruction ∈ program, instruction.Meaningful := by
  rcases Sequencing.bind_eq_ok.mp h with ⟨last, hrun, _⟩
  refine ⟨?_, Machine.meaningful_of_run hrun hnumbers⟩
  rintro rfl
  cases h

end

/-! ## Four kinds of texts -/

namespace Instruction

inductive Kind where
  | number
  | name
  | operator
  | call
  deriving DecidableEq

def kind : Instruction → Kind
  | number _ => .number
  | name _ => .name
  | operator _ => .operator
  | call _ _ => .call

def operatorTexts : List (List Char) :=
  [['+'], ['-'], ['*'], ['/'], ['%'], ['^'], ['n', 'e', 'g'], ['!']]

/-- The kind of instruction that a text is written for, if it can be carried out. -/
def Kind.ofText (text : List Char) : Kind :=
  if text ∈ operatorTexts then .operator
  else if text = ['a', 'n', 's'] then .name
  else if '/' ∈ text then .call
  else .number

/-! ## The texts of each kind -/

theorem toList_text_call (function : String) (count : Nat) :
    (call function count).text.toList = function.toList ++ '/' :: count.repr.toList := by
  show (function ++ "/" ++ count.repr).toList = _
  rw [String.toList_append, String.toList_append, List.append_assoc]
  rfl

theorem isDigit_of_mem_repr {count : Nat} {c : Char} (h : c ∈ count.repr.toList) :
    c.isDigit = true := by
  rw [Nat.toList_repr] at h
  exact Nat.isDigit_of_mem_toDigits (by decide) (by decide) h

theorem not_mem_name (function : Builtin) :
    '/' ∉ function.name.toList ∧ ' ' ∉ function.name.toList := by
  cases function <;> decide

theorem kind_number {value : Float} (h : Double.isNaN value = false) :
    Kind.ofText (number value).text.toList = .number := by
  show Kind.ofText (NumberText.exactText value).toList = _
  have hslash : '/' ∉ (NumberText.exactText value).toList := by
    intro hmem
    exact absurd (NumberText.mem_exactText h hmem) (by decide)
  rcases NumberText.exists_exactText_eq_cons h with ⟨c, cs, htext, hc⟩
  have hoperator : (NumberText.exactText value).toList ∉ operatorTexts := by
    rw [htext]
    intro hmem
    generalize Double.isNegative value = negative at hmem
    cases negative with
    | true => simp [operatorTexts] at hmem
    | false =>
        have hstart : ∀ text ∈ operatorTexts,
            ¬ ∃ c cs, text = c :: cs ∧ (c.isDigit = true ∨ c ∈ ['.', 'i']) := by
          simp [operatorTexts]
        exact hstart _ hmem ⟨c, cs, rfl, hc⟩
  have hname : (NumberText.exactText value).toList ≠ ['a', 'n', 's'] := by
    intro heq
    have hmem : 'a' ∈ (NumberText.exactText value).toList := by
      rw [heq]
      exact List.mem_cons_self
    exact absurd (NumberText.mem_exactText h hmem) (by decide)
  rw [Kind.ofText, if_neg hoperator, if_neg hname, if_neg hslash]

theorem kind_call (function : String) (count : Nat) :
    Kind.ofText (call function count).text.toList = .call := by
  have hslash : '/' ∈ (call function count).text.toList := by
    rw [toList_text_call]
    simp
  -- the only operator with a slash has no digit behind it
  have hlength : (call function count).text.toList.length ≠ 1 := by
    have hdigits : count.repr.toList ≠ [] := by
      rw [Nat.toList_repr]
      exact Nat.toDigits_ne_nil
    have := List.length_pos_iff.mpr hdigits
    rw [toList_text_call, List.length_append, List.length_cons]
    omega
  have hoperators : ∀ text ∈ operatorTexts, '/' ∈ text → text.length = 1 := by decide
  generalize (call function count).text.toList = text at hslash hlength
  have hoperator : text ∉ operatorTexts := fun hmem => hlength (hoperators text hmem hslash)
  have hname : text ≠ ['a', 'n', 's'] := by
    rintro rfl
    exact absurd hslash (by decide)
  rw [Kind.ofText, if_neg hoperator, if_neg hname, if_pos hslash]

theorem Meaningful.kind_text {instruction : Instruction} (h : instruction.Meaningful) :
    Kind.ofText instruction.text.toList = instruction.kind := by
  cases h with
  | number hnumber => exact kind_number hnumber
  | answer => decide
  | operator op => cases op <;> decide
  | call function count => exact kind_call function.name count

theorem Meaningful.space_not_mem {instruction : Instruction} (h : instruction.Meaningful) :
    ' ' ∉ instruction.text.toList := by
  cases h with
  | number hnumber =>
      intro hmem
      exact absurd (NumberText.mem_exactText hnumber hmem) (by decide)
  | answer => decide
  | operator op => cases op <;> decide
  | call function count =>
      rw [toList_text_call, List.mem_append, List.mem_cons, not_or, not_or]
      refine ⟨(not_mem_name function).2, by decide, ?_⟩
      intro hmem
      exact absurd (isDigit_of_mem_repr hmem) (by decide)

/-! ## The instruction of a text -/

theorem operator_text_inj {op other : Operator}
    (h : (operator op).text = (operator other).text) : op = other := by
  cases op <;> cases other <;> first
    | rfl
    | exact absurd h (by decide)

theorem call_text_inj {function other : Builtin} {count otherCount : Nat}
    (h : (call function.name count).text = (call other.name otherCount).text) :
    function.name = other.name ∧ count = otherCount := by
  have htext := congrArg String.toList h
  rw [toList_text_call, toList_text_call] at htext
  have hdigits : '/' ∉ count.repr.toList := by
    intro hmem
    exact absurd (isDigit_of_mem_repr hmem) (by decide)
  rcases (List.append_cons_inj_of_notMem (not_mem_name function).1 hdigits).mp htext with
    ⟨hname, _, hcount⟩
  exact ⟨String.toList_inj.mp hname, Nat.repr_inj.mp (String.toList_inj.mp hcount)⟩

theorem Meaningful.eq_of_text {first second : Instruction} (hfirst : first.Meaningful)
    (hsecond : second.Meaningful) (h : first.text = second.text) : first = second := by
  have hkind : first.kind = second.kind := by
    rw [← hfirst.kind_text, ← hsecond.kind_text, h]
  cases hfirst with
  | number hnumber =>
      cases hsecond with
      | number hother => rw [NumberText.exactText_inj hnumber hother h]
      | answer | operator | call => cases hkind
  | answer =>
      cases hsecond with
      | answer => rfl
      | number | operator | call => cases hkind
  | operator op =>
      cases hsecond with
      | operator other => rw [operator_text_inj h]
      | number | answer | call => cases hkind
  | call function count =>
      cases hsecond with
      | call other otherCount =>
          rcases call_text_inj h with ⟨hname, hcount⟩
          rw [hname, hcount]
      | number | answer | operator => cases hkind

end Instruction

/-! ## Whole programs -/

namespace Program

variable {first second : Program}

theorem splitOn_text (hne : first ≠ []) (h : ∀ instruction ∈ first, instruction.Meaningful) :
    first.text.toList.splitOn ' ' = first.map fun instruction => instruction.text.toList := by
  rw [text, String.toList_intercalate, List.map_map]
  apply List.splitOn_intercalate
  · intro word hword
    rcases List.mem_map.mp hword with ⟨instruction, hmem, rfl⟩
    exact (h instruction hmem).space_not_mem
  · exact mt List.map_eq_nil_iff.mp hne

theorem eq_of_map_text (hfirst : ∀ instruction ∈ first, instruction.Meaningful)
    (hsecond : ∀ instruction ∈ second, instruction.Meaningful)
    (h : first.map (fun instruction => instruction.text.toList) =
      second.map fun instruction => instruction.text.toList) : first = second := by
  induction first generalizing second with
  | nil => exact (List.map_eq_nil_iff.mp h.symm).symm
  | cons instruction rest ih =>
      cases second with
      | nil => cases h
      | cons other others =>
          rw [List.map_cons, List.map_cons, List.cons.injEq, String.toList_inj] at h
          rw [List.forall_mem_cons] at hfirst hsecond
          rw [hfirst.1.eq_of_text hsecond.1 h.1, ih hfirst.2 hsecond.2 h.2]

/-- Programs with values are equal if their texts are, whatever environments they are run in. -/
theorem eq_of_text_of_evaluate {environment other : Environment} {v w : Float}
    (hfirst : first.evaluate environment = .ok v) (hsecond : second.evaluate other = .ok w)
    (hnumbers : ∀ x, .number x ∈ first ++ second → Double.isNaN x = false)
    (htext : first.text = second.text) : first = second := by
  rcases meaningful_of_evaluate hfirst fun x hx => hnumbers x (List.mem_append_left _ hx) with
    ⟨hne, hmeaningful⟩
  rcases meaningful_of_evaluate hsecond fun x hx => hnumbers x (List.mem_append_right _ hx) with
    ⟨hne', hmeaningful'⟩
  have hsplit := splitOn_text hne hmeaningful
  rw [htext, splitOn_text hne' hmeaningful'] at hsplit
  exact eq_of_map_text hmeaningful hmeaningful' hsplit.symm

theorem eq_of_text_of_evaluate_of_quotient :
    ∃ first second : Program,
      first = [.number (6 / 2), .name "ans", .call "max" 2, .operator .negate] ∧
      second = [.number 3, .name "ans", .call "max" 2, .operator .negate] ∧
      first.evaluate ⟨.radians, 5, default⟩ = .ok (-5) ∧
      second.evaluate ⟨.degrees, 1, default⟩ = .ok (-3) ∧
      (∀ x, .number x ∈ first ++ second → Double.isNaN x = false) ∧
      first.text = second.text ∧ first = second := by
  have hfirst : evaluate ⟨.radians, 5, default⟩
      [.number (6 / 2), .name "ans", .call "max" 2, .operator .negate] = .ok (-5) :=
    Sequencing.eq_ok_of_toOption (by decide +kernel)
  have hsecond : evaluate ⟨.degrees, 1, default⟩
      [.number 3, .name "ans", .call "max" 2, .operator .negate] = .ok (-3) :=
    Sequencing.eq_ok_of_toOption (by decide +kernel)
  have htext : text [.number (6 / 2), .name "ans", .call "max" 2, .operator .negate] =
      text [.number 3, .name "ans", .call "max" 2, .operator .negate] := by decide +kernel
  have hthree : Double.isNaN (6 / 2) = false ∧ Double.isNaN 3 = false := by decide +kernel
  have hnumbers : ∀ x, .number x ∈
      [Instruction.number (6 / 2), .name "ans", .call "max" 2, .operator .negate] ++
        [.number 3, .name "ans", .call "max" 2, .operator .negate] →
      Double.isNaN x = false := by
    intro x hx
    simp only [List.cons_append, List.nil_append, List.mem_cons, Instruction.number.injEq,
      reduceCtorEq, List.not_mem_nil, or_false, false_or] at hx
    rcases hx with rfl | rfl
    · exact hthree.1
    · exact hthree.2
  exact ⟨_, _, rfl, rfl, hfirst, hsecond, hnumbers, htext,
    eq_of_text_of_evaluate hfirst hsecond hnumbers htext⟩

/-- Without a value a name may be written like an operator. -/
example : text [.name "neg"] = text [.operator .negate] := rfl

end Program
end Calculator
