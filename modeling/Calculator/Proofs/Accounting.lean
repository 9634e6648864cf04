import Calculator.Proofs.Placement
import Mathlib.Algebra.Order.Group.Multiset
import Mathlib.Data.List.ReduceOption
import Mathlib.Tactic.Abel

/-!
# Every token is accounted for

A program has one instruction for each operand, operator, suffix and call of its tokens,
and no other instruction.  This holds of all tokens that can be arranged, whether they
are an expression or not.  Operands keep their order, calls come in the order in which
their parentheses are closed, and a call carries the number of arguments that are written
between its parentheses.

An operator or a call that is read goes to the output much later, so an arrangement is
taken together with the tokens to come.  These tell how many commas each open call is
going to have.  What is in the output, what waits as an operator and what is owed for the
open brackets then changes with each token by the instruction of this token only.
-/

namespace Calculator

/-! ## What tokens stand for -/

def closesAtOnce : List Token → Bool
  | .blank :: rest => closesAtOnce rest
  | .closeParen :: _ => true
  | _ => false

/--
The number of commas among the tokens to come whose innermost open bracket is one that is
open already, given how many brackets are open inside of it.
-/
def commasInside : List Token → Nat → Nat
  | .openParen :: rest, depth => commasInside rest (depth + 1)
  | .closeParen :: rest, depth + 1 => commasInside rest depth
  | .closeParen :: _, 0 => 0
  | .comma :: rest, depth + 1 => commasInside rest (depth + 1)
  | .comma :: rest, 0 => commasInside rest 0 + 1
  | _ :: rest, depth => commasInside rest depth
  | [], _ => 0

def argumentCount (rest : List Token) : Nat :=
  if closesAtOnce rest then 0 else commasInside rest 0 + 1

/--
The instructions that tokens stand for, in the order of the tokens.  Whether an operand is
expected before them tells a negation from a subtraction.
-/
inductive StandFor : Bool → List Token → List Instruction → Prop where
  | nil (expects : Bool) : StandFor expects [] []
  | number {expects : Bool} {rest : List Token} {instructions : List Instruction}
      (value : Float) : StandFor false rest instructions →
      StandFor expects (.number value :: rest) (.number value :: instructions)
  | constant {expects : Bool} {rest : List Token} {instructions : List Instruction}
      {text : String} {constant : Constant} : Constant.named? text = some constant →
      StandFor false rest instructions →
      StandFor expects (.name text :: rest) (.number constant.value :: instructions)
  | name {expects : Bool} {rest : List Token} {instructions : List Instruction}
      {text : String} : Constant.named? text = none → rest.head? ≠ some .openParen →
      StandFor false rest instructions →
      StandFor expects (.name text :: rest) (.name text :: instructions)
  | call {expects : Bool} {rest : List Token} {instructions : List Instruction}
      {text : String} : Constant.named? text = none → StandFor true rest instructions →
      StandFor expects (.name text :: .openParen :: rest)
        (.call text (argumentCount rest) :: instructions)
  | negation {rest : List Token} {instructions : List Instruction} :
      StandFor true rest instructions →
      StandFor true (.operator '-' :: rest) (.operator .negate :: instructions)
  | between {rest : List Token} {instructions : List Instruction} {symbol : Char}
      {op : Operator} : Operator.between? symbol = some op → StandFor true rest instructions →
      StandFor false (.operator symbol :: rest) (.operator op :: instructions)
  | suffix {rest : List Token} {instructions : List Instruction} :
      StandFor false rest instructions →
      StandFor false (.suffix '!' :: rest) (.operator .factorial :: instructions)
  | openParen {expects : Bool} {rest : List Token} {instructions : List Instruction} :
      StandFor true rest instructions → StandFor expects (.openParen :: rest) instructions
  | closeParen {expects : Bool} {rest : List Token} {instructions : List Instruction} :
      StandFor false rest instructions → StandFor expects (.closeParen :: rest) instructions
  | comma {expects : Bool} {rest : List Token} {instructions : List Instruction} :
      StandFor true rest instructions → StandFor expects (.comma :: rest) instructions
  | blank {expects : Bool} {rest : List Token} {instructions : List Instruction} :
      StandFor expects rest instructions → StandFor expects (.blank :: rest) instructions

/-- A bracket that is open, as the instruction of its call, if it opens one. -/
abbrev Frame := Option Instruction

/-- The calls of the brackets that are open and of the tokens to come, as they are closed. -/
def closedCalls : List Frame → List Token → List Instruction
  | frames, .name text :: .openParen :: rest =>
      match Constant.named? text with
      | some _ => closedCalls (none :: frames) rest
      | none => closedCalls (some (.call text (argumentCount rest)) :: frames) rest
  | frames, .openParen :: rest => closedCalls (none :: frames) rest
  | frame :: frames, .closeParen :: rest => frame.toList ++ closedCalls frames rest
  | frames, _ :: rest => closedCalls frames rest
  | _, [] => []

theorem closedCalls_name {text : String} {rest : List Token} (frames : List Frame)
    (h : ¬ Token.OpensCall [.name text] rest) :
    closedCalls frames (.name text :: rest) = closedCalls frames rest := by
  cases rest with
  | nil => rfl
  | cons next rest =>
      cases next with
      | openParen =>
          rw [closedCalls]
          split
          · rfl
          · rename_i hnone
            exact absurd ⟨text, rfl, hnone, rfl⟩ h
      | number | operator | suffix | closeParen | comma | name | blank => rfl

namespace Instruction

def isOperand : Instruction → Bool
  | number _ | name _ => true
  | operator _ | call _ _ => false

def isCall : Instruction → Bool
  | call _ _ => true
  | number _ | name _ | operator _ => false

end Instruction

/-!
## What is pending

Operators are owed as they are.  An open bracket is owed as the call that it opens, with the
number of arguments that the call will have had when it is closed.
-/

namespace Pending

def operators : List Pending → Multiset Instruction
  | [] => 0
  | operator op :: pending => {.operator op} + operators pending
  | group :: pending => operators pending
  | call _ _ :: pending => operators pending

/--
The open brackets, with the number of arguments that each call is going to have: whether
the innermost bracket is closed at once and the commas to come decide this.
-/
def frames (closed : Bool) (commasToCome : Nat → Nat) : List Pending → List Frame
  | [] => []
  | operator _ :: pending => frames closed commasToCome pending
  | group :: pending => none :: frames false (fun depth => commasToCome (depth + 1)) pending
  | call function commas :: pending =>
      some (.call function (if closed then 0 else commas + commasToCome 0 + 1)) ::
        frames false (fun depth => commasToCome (depth + 1)) pending

/-- An output and a stack that differ from others by released operators only. -/
structure Released (output : List Instruction) (pending : List Pending)
    (after : List Instruction) (below : List Pending) : Prop where
  total : after + operators below = (output + operators pending : Multiset Instruction)
  frames : ∀ closed commasToCome,
    frames closed commasToCome below = frames closed commasToCome pending
  filter : ∀ p : Instruction → Bool, (∀ op, p (.operator op) = false) →
    after.filter p = output.filter p

theorem Released.refl (output : List Instruction) (pending : List Pending) :
    Released output pending output pending :=
  ⟨rfl, fun _ _ => rfl, fun _ _ => rfl⟩

theorem operators_map_append (waiting : List Operator) (pending : List Pending) :
    operators (waiting.map .operator ++ pending) =
      (waiting.map Instruction.operator : Multiset Instruction) + operators pending := by
  induction waiting with
  | nil => simp
  | cons op waiting ih =>
      rw [List.map_cons, List.cons_append, operators, ih, ← add_assoc, List.map_cons]
      rw [← Multiset.cons_coe, Multiset.singleton_add]

theorem frames_map_append (closed : Bool) (commasToCome : Nat → Nat) (waiting : List Operator)
    (pending : List Pending) :
    frames closed commasToCome (waiting.map .operator ++ pending) =
      frames closed commasToCome pending := by
  induction waiting with
  | nil => rfl
  | cons op waiting ih => exact ih

theorem released_release (p : Operator → Bool) (output : List Instruction)
    (pending : List Pending) :
    Released output pending (release p output pending).1 (release p output pending).2 := by
  rcases exists_of_release p output pending with ⟨waiting, below, rfl, hrelease, _, _⟩
  rw [hrelease]
  constructor
  · rw [operators_map_append, List.map_reverse, ← Multiset.coe_add, Multiset.coe_reverse]
    abel
  · intro closed commasToCome
    exact (frames_map_append closed commasToCome waiting below).symm
  · intro q hq
    have hguard : ∀ op, Option.guard q (.operator op) = none := by
      intro op
      rw [Option.guard, hq op]
      rfl
    have hkept := (filterMap_release (g := fun _ => none) hguard (fun _ => rfl) p output
      (waiting.map .operator ++ below)).1
    rw [hrelease, List.filterMap_eq_filter] at hkept
    exact hkept

theorem Released.of_drain {output after : List Instruction} {pending below : List Pending}
    (h : drain output pending = (after, below)) : Released output pending after below := by
  have hreleased := released_release (fun _ => true) output pending
  rw [← drain, h] at hreleased
  exact hreleased

end Pending

/-! ## What the tokens to come add -/

namespace Arrangement

def frames (a : Arrangement) (rest : List Token) : List Frame :=
  Pending.frames (closesAtOnce rest && decide (a.previous = .opening)) (commasInside rest)
    a.pending

/-- What is in the output, and what is still to be put there for what is pending. -/
def ledger (a : Arrangement) (rest : List Token) : Multiset Instruction :=
  a.output + Pending.operators a.pending + (a.frames rest).reduceOption

/-- How a program comes from an arrangement and from what the tokens to come stand for. -/
structure Completes (a : Arrangement) (rest : List Token) (instructions : List Instruction)
    (program : Program) : Prop where
  standFor : StandFor a.previous.expectsOperand rest instructions
  total : program = a.ledger rest + instructions
  operands : program.filter Instruction.isOperand =
    (a.output.filter Instruction.isOperand).reverse ++ instructions.filter Instruction.isOperand
  calls : program.filter Instruction.isCall =
    (a.output.filter Instruction.isCall).reverse ++ closedCalls (a.frames rest) rest

variable {a b : Arrangement} {role : Role} {word rest : List Token}
  {instructions : List Instruction} {program : Program}

theorem completes_of_finish (h : a.finish = .ok program) : a.Completes [] [] program := by
  have hreleased := Pending.Released.of_drain (drain_of_finish_eq_ok h)
  -- the stack is empty after the last release, so no bracket was on it before
  have hframes : a.frames [] = [] := (hreleased.frames false (commasInside [])).symm
  have htotal := hreleased.total
  have hfilter : ∀ p : Instruction → Bool, (∀ op, p (.operator op) = false) →
      program.filter p = (a.output.filter p).reverse := by
    intro p hp
    rw [← hreleased.filter p hp, List.filter_reverse, List.reverse_reverse]
  refine ⟨.nil _, ?_, ?_, ?_⟩
  · rw [ledger, hframes, ← htotal, Multiset.coe_reverse]
    simp [Pending.operators, List.reduceOption]
  · rw [hfilter _ fun _ => rfl]
    simp
  · rw [hfilter _ fun _ => rfl, hframes]
    simp [closedCalls]

theorem Completes.blank (h : a.Completes rest instructions program) :
    a.Completes (.blank :: rest) instructions program :=
  ⟨.blank h.standFor, h.total, h.operands, h.calls⟩

/-!
## The tokens of one role

There is one case for each kind of step.  Each tells how what the tokens from here on stand
for is made of the role's own instruction and of what the tokens behind it stand for.
-/

theorem Completes.of_operand {instruction : Instruction}
    (h : (a.addOperand instruction).Completes rest instructions program)
    (hword : Role.Spells word (.operand instruction)) (hopens : ¬ Token.OpensCall word rest) :
    a.Completes (word ++ rest) (instruction :: instructions) program := by
  have hframes : (a.addOperand instruction).frames rest = a.frames (word ++ rest) := by
    cases hword <;> simp [frames, addOperand, closesAtOnce, commasInside]
  have hclosed : closedCalls (a.frames (word ++ rest)) (word ++ rest) =
      closedCalls (a.frames (word ++ rest)) rest := by
    cases hword with
    | number value => rfl
    | constant hsome => exact closedCalls_name _ hopens
    | name hnone => exact closedCalls_name _ hopens
  have hinstruction : instruction.isOperand = true ∧ instruction.isCall = false := by
    cases hword <;> exact ⟨rfl, rfl⟩
  refine ⟨?_, ?_, ?_, ?_⟩
  · cases hword with
    | number value => exact .number value h.standFor
    | constant hsome => exact .constant hsome h.standFor
    | name hnone =>
        refine .name hnone ?_ h.standFor
        intro hhead
        exact hopens ⟨_, rfl, hnone, hhead⟩
  · rw [h.total, ledger, hframes, ledger]
    simp only [addOperand, ← Multiset.cons_coe, ← Multiset.singleton_add]
    abel
  · rw [h.operands, addOperand]
    simp [hinstruction.1]
  · rw [h.calls, hframes, hclosed, addOperand]
    simp [hinstruction.2]

theorem Completes.of_openCall {function : String}
    (h : (a.addOpening (.call function 0)).Completes rest instructions program)
    (hnone : Constant.named? function = none) :
    a.Completes (.name function :: .openParen :: rest)
      (.call function (argumentCount rest) :: instructions) program := by
  have hframes : (a.addOpening (.call function 0)).frames rest =
      some (.call function (argumentCount rest)) ::
        a.frames (.name function :: .openParen :: rest) := by
    simp [frames, addOpening, Pending.frames, argumentCount, closesAtOnce, commasInside]
  refine ⟨.call hnone h.standFor, ?_, h.operands, ?_⟩
  · rw [h.total, ledger, hframes, ledger]
    simp only [addOpening, Pending.operators, List.reduceOption_cons_of_some,
      ← Multiset.cons_coe, ← Multiset.singleton_add]
    abel
  · rw [h.calls, hframes]
    simp [closedCalls, hnone, addOpening]

variable {after : List Instruction} {below : List Pending}

theorem Completes.of_operator {op : Operator} {symbol : Char}
    (h : Completes ⟨after, .operator op :: below, .operator⟩ rest instructions program)
    (hreleased : Pending.Released a.output a.pending after below)
    (hstandFor : StandFor a.previous.expectsOperand (.operator symbol :: rest)
      (.operator op :: instructions)) :
    a.Completes (.operator symbol :: rest) (.operator op :: instructions) program := by
  have hframes : frames ⟨after, .operator op :: below, .operator⟩ rest =
      a.frames (.operator symbol :: rest) := by
    simp [frames, Pending.frames, closesAtOnce, commasInside, hreleased.frames]
  refine ⟨hstandFor, ?_, ?_, ?_⟩
  · rw [h.total, ledger, hframes, ledger, ← hreleased.total]
    simp only [Pending.operators, ← Multiset.cons_coe, ← Multiset.singleton_add]
    abel
  · rw [h.operands, hreleased.filter _ fun _ => rfl]
    simp [Instruction.isOperand]
  · rw [h.calls, hframes, hreleased.filter _ fun _ => rfl]
    rfl

theorem Completes.of_suffix
    (h : Completes ⟨.operator .factorial :: a.output, a.pending, .suffix⟩ rest instructions program)
    (hexpects : a.previous.expectsOperand = false) :
    a.Completes (.suffix '!' :: rest) (.operator .factorial :: instructions) program := by
  have hframes : frames ⟨.operator .factorial :: a.output, a.pending, .suffix⟩ rest =
      a.frames (.suffix '!' :: rest) := by
    simp [frames, closesAtOnce, commasInside]
  refine ⟨?_, ?_, h.operands, ?_⟩
  · rw [hexpects]
    exact .suffix h.standFor
  · rw [h.total, ledger, hframes, ledger]
    simp only [← Multiset.cons_coe, ← Multiset.singleton_add]
    abel
  · rw [h.calls, hframes]
    rfl

theorem Completes.of_comma {function : String} {commas : Nat}
    (h : Completes ⟨after, .call function (commas + 1) :: below, .comma⟩ rest instructions program)
    (hreleased : Pending.Released a.output a.pending after (.call function commas :: below)) :
    a.Completes (.comma :: rest) instructions program := by
  have hframes : frames ⟨after, .call function (commas + 1) :: below, .comma⟩ rest =
      a.frames (.comma :: rest) := by
    rw [frames, frames, ← hreleased.frames]
    simp [Pending.frames, closesAtOnce, commasInside, Nat.add_comm, Nat.add_left_comm]
  refine ⟨.comma h.standFor, ?_, ?_, ?_⟩
  · rw [h.total, ledger, hframes, ledger, ← hreleased.total]
    rfl
  · rw [h.operands, hreleased.filter _ fun _ => rfl]
  · rw [h.calls, hframes, hreleased.filter _ fun _ => rfl]
    rfl

theorem Completes.of_closeGroup
    (h : Completes ⟨after, below, .closing⟩ rest instructions program)
    (hreleased : Pending.Released a.output a.pending after (.group :: below)) :
    a.Completes (.closeParen :: rest) instructions program := by
  have hframes : a.frames (.closeParen :: rest) = none :: frames ⟨after, below, .closing⟩ rest := by
    rw [frames, frames, ← hreleased.frames]
    simp [Pending.frames, commasInside]
  refine ⟨.closeParen h.standFor, ?_, ?_, ?_⟩
  · rw [h.total, ledger, ledger, hframes, ← hreleased.total]
    rfl
  · rw [h.operands, hreleased.filter _ fun _ => rfl]
  · rw [h.calls, hframes, hreleased.filter _ fun _ => rfl]
    rfl

theorem Completes.of_closeCall {function : String} {commas count : Nat}
    (h : Completes ⟨.call function count :: after, below, .closing⟩ rest instructions program)
    (hreleased : Pending.Released a.output a.pending after (.call function commas :: below))
    (hcount : count = if a.previous = .opening then 0 else commas + 1) :
    a.Completes (.closeParen :: rest) instructions program := by
  have hframes : a.frames (.closeParen :: rest) =
      some (.call function count) ::
        frames ⟨.call function count :: after, below, .closing⟩ rest := by
    rw [frames, frames, ← hreleased.frames, hcount]
    simp [Pending.frames, closesAtOnce, commasInside]
  refine ⟨.closeParen h.standFor, ?_, ?_, ?_⟩
  · rw [h.total, ledger, ledger, hframes, ← hreleased.total]
    simp only [Pending.operators, List.reduceOption_cons_of_some, ← Multiset.cons_coe,
      ← Multiset.singleton_add]
    abel
  · rw [h.operands, ← hreleased.filter _ fun _ => rfl]
    rfl
  · rw [h.calls, hframes, ← hreleased.filter _ fun _ => rfl, List.filter_cons_of_pos rfl,
      List.reverse_cons, List.append_assoc]
    rfl

theorem previous_ne_opening (h : a.previous.expectsOperand = false) : a.previous ≠ .opening := by
  intro hopening
  rw [hopening] at h
  cases h

theorem Step.exists_completes (hstep : a.Step role b) (hword : Role.Spells word role)
    (hopens : ¬ Token.OpensCall word rest) (h : b.Completes rest instructions program) :
    ∃ earlier, a.Completes (word ++ rest) earlier program := by
  cases hstep with
  | operand _ instruction => exact ⟨_, h.of_operand hword hopens⟩
  | openGroup =>
      cases hword
      exact ⟨_, .openParen h.standFor, h.total, h.operands, h.calls⟩
  | openCall _ function =>
      cases hword with
      | openCall hnone => exact ⟨_, h.of_openCall hnone⟩
  | negation hexpects =>
      cases hword
      refine ⟨_, h.of_operator (.refl _ _) ?_⟩
      rw [hexpects]
      exact .negation h.standFor
  | between two hexpects =>
      rename_i op
      cases hword
      refine ⟨_, h.of_operator (Pending.released_release op.yieldsTo _ _) ?_⟩
      rw [hexpects]
      exact .between (Operator.between?_symbol two) h.standFor
  | suffix hexpects =>
      cases hword
      exact ⟨_, h.of_suffix hexpects⟩
  | comma hexpects hdrain =>
      cases hword
      exact ⟨_, h.of_comma (.of_drain hdrain)⟩
  | closeGroup hexpects hdrain =>
      cases hword
      exact ⟨_, h.of_closeGroup (.of_drain hdrain)⟩
  | closeCall hexpects hdrain =>
      cases hword
      refine ⟨_, h.of_closeCall (.of_drain hdrain) ?_⟩
      rw [if_neg (previous_ne_opening hexpects)]
  | closeEmptyGroup output pending =>
      cases hword
      exact ⟨_, h.of_closeGroup (.refl _ _)⟩
  | closeEmptyCall output function pending =>
      cases hword
      exact ⟨_, h.of_closeCall (.refl _ _) rfl⟩

/-! ## Whole expressions -/

theorem exists_completes_of_placeAll {tokens : List Token} (hcoherent : a.Coherent)
    (hplace : a.placeAll (Role.ofTokens tokens) = .ok b) (hfinish : b.finish = .ok program) :
    ∃ instructions, a.Completes tokens instructions program := by
  -- the last token is accounted for first, because a bracket is settled by what is behind it
  induction tokens using Role.pieceInduction generalizing a with
  | nil =>
      cases hplace
      exact ⟨[], completes_of_finish hfinish⟩
  | single token rest hopens ih =>
      rw [Role.ofTokens_single hopens, placeAll_cons] at hplace
      rcases Sequencing.bind_eq_ok.mp hplace with ⟨next, hfirst, hrest⟩
      by_cases hblank : token = .blank
      · subst hblank
        cases hfirst
        rcases ih hcoherent hrest with ⟨instructions, h⟩
        exact ⟨instructions, h.blank⟩
      · have hword := Role.spells_alone hblank
        have hstep := step_of_place hcoherent ⟨_, hword⟩ hfirst
        rcases ih (hstep.coherent hcoherent) hrest with ⟨instructions, h⟩
        exact hstep.exists_completes hword hopens h
  | callee text rest hnone ih =>
      rw [Role.ofTokens_callee hnone, placeAll_cons] at hplace
      rcases Sequencing.bind_eq_ok.mp hplace with ⟨next, hfirst, hrest⟩
      have hword := Role.Spells.openCall hnone
      have hstep := step_of_place hcoherent ⟨_, hword⟩ hfirst
      have hopens : ¬ Token.OpensCall [.name text, .openParen] rest := by
        intro hcall
        rcases hcall with ⟨_, hlast, _, _⟩
        cases hlast
      rcases ih (hstep.coherent hcoherent) hrest with ⟨instructions, h⟩
      exact hstep.exists_completes hword hopens h

end Arrangement

/--
A program has the instructions that its tokens stand for, each of them once, and nothing
else.  Its operands are in the order of the tokens, and its calls in the order in which
their parentheses are closed.
-/
theorem arrange_accounts {tokens : List Token} {program : Program}
    (h : arrange tokens = .ok program) :
    ∃ instructions, StandFor true tokens instructions ∧
      program.Perm instructions ∧
      program.filter Instruction.isOperand = instructions.filter Instruction.isOperand ∧
      program.filter Instruction.isCall = closedCalls [] tokens := by
  rcases Sequencing.bind_eq_ok.mp h with ⟨a, hplace, hfinish⟩
  rcases Arrangement.exists_completes_of_placeAll Arrangement.coherent_start hplace hfinish with
    ⟨instructions, hcompletes⟩
  have htotal := hcompletes.total
  rw [Arrangement.ledger] at htotal
  refine ⟨instructions, hcompletes.standFor, ?_, hcompletes.operands, hcompletes.calls⟩
  apply Multiset.coe_eq_coe.mp
  rw [htotal]
  exact zero_add _

theorem arrange_accounts_of_calls :
    ∃ tokens program,
      tokens = [Token.operator '-', .name "max", .openParen, .name "x", .comma, .name "g",
        .openParen, .blank, .closeParen, .suffix '!', .closeParen, .operator '-', .name "f",
        .blank, .openParen, .name "pi", .closeParen] ∧
      program = [Instruction.name "x", .call "g" 0, .operator .factorial, .call "max" 2,
        .operator .negate, .name "f", .number Constant.pi.value, .operator .subtract] ∧
      arrange tokens = .ok program ∧
      ∃ instructions, StandFor true tokens instructions ∧
        program.Perm instructions ∧
        program.filter Instruction.isOperand = instructions.filter Instruction.isOperand ∧
        program.filter Instruction.isCall = closedCalls [] tokens :=
  ⟨_, _, rfl, rfl, rfl, arrange_accounts rfl⟩

end Calculator
