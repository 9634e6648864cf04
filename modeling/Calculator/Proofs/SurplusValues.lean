import Calculator.Evaluation
import Calculator.Proofs.Juxtaposition
import Calculator.Proofs.Placement
import Calculator.Proofs.StackDepth

/-!
# Values left over by operands side by side

Operands that follow each other directly are all put on the stack, and no operator
takes them up.  The account that shows this runs along with the arrangement: the
program so far leaves one value for each operand that a pending operator or call has
had, one for the operand that has just ended, and one for each juxtaposition.  A
release turns the operands of the released operators into one, whatever surplus lies
below, so no operator takes a value that does not belong to it.
-/

namespace Calculator

/-! ## Values held for what is pending -/

namespace Pending

/-- The number of complete operands that are waiting with an operator or a bracket. -/
def held : Pending → Nat
  | operator op => op.operandCount - 1
  | group => 0
  | call _ commas => commas

def heldAll : List Pending → Nat
  | [] => 0
  | entry :: pending => entry.held + heldAll pending

theorem heldAll_cons (entry : Pending) (pending : List Pending) :
    heldAll (entry :: pending) = entry.held + heldAll pending := rfl

theorem heldAll_append (first second : List Pending) :
    heldAll (first ++ second) = heldAll first + heldAll second := by
  induction first with
  | nil => rw [List.nil_append, heldAll, Nat.zero_add]
  | cons entry first ih =>
      rw [List.cons_append, heldAll_cons, heldAll_cons, ih, Nat.add_assoc]

/-- Operators that are released one after the other leave a single operand of theirs. -/
theorem depth?_released (waiting : List Operator) (depth : Nat) :
    Program.depth? (heldAll (waiting.map .operator) + (depth + 1)) (waiting.map .operator) =
      some (depth + 1) := by
  induction waiting with
  | nil =>
      rw [List.map_nil, List.map_nil, Program.depth?_nil, heldAll, Nat.zero_add]
  | cons op waiting ih =>
      rw [List.map_cons, List.map_cons, Program.depth?_cons, heldAll_cons]
      have hstep : (Instruction.operator op).depth?
          (op.operandCount - 1 + heldAll (waiting.map .operator) + (depth + 1)) =
            some (heldAll (waiting.map .operator) + (depth + 1)) := by
        rw [Instruction.depth?_eq_some]
        show op.operandCount ≤ _ ∧ _ - op.operandCount + 1 = _
        rcases op.operandCount_eq_one_or_two with hcount | hcount <;> rw [hcount] <;> omega
      rw [held, hstep]
      exact ih

theorem depth?_of_release {p : Operator → Bool} {output after : List Instruction}
    {pending rest : List Pending} {depth : Nat}
    (hdepth : Program.depth? 0 output.reverse = some (heldAll pending + (depth + 1)))
    (hrelease : release p output pending = (after, rest)) :
    Program.depth? 0 after.reverse = some (heldAll rest + (depth + 1)) := by
  rcases exists_of_release p output pending with ⟨waiting, below, hpending, heq, _, _⟩
  rw [hrelease] at heq
  cases heq
  have hreleased := depth?_released waiting (heldAll rest + depth)
  rw [hpending, heldAll_append] at hdepth
  rw [List.reverse_append, Program.depth?_append, hdepth, ← List.map_reverse, List.reverse_reverse]
  rw [Option.bind_some, Nat.add_assoc, ← Nat.add_assoc (heldAll rest), hreleased]

end Pending

/-! ## Sequences without empty groups -/

namespace Arrangement

def InEmptyGroup (a : Arrangement) : Prop :=
  a.previous = .opening ∧ a.pending.head? = some .group

variable {a b : Arrangement} {role : Role}

theorem Step.previous_eq (h : Step a role b) : b.previous = a.previous.followedBy role := by
  cases h <;> rfl

theorem Step.inEmptyGroup (h : Step a role b) (hempty : b.InEmptyGroup) : role = .openGroup := by
  cases h with
  | openGroup => rfl
  | openCall => cases hempty.2
  | operand => cases hempty.1
  | negation hexpects => cases hempty.1
  | between two hexpects => cases hempty.1
  | suffix hexpects => cases hempty.1
  | comma hexpects hdrain => cases hempty.1
  | closeGroup hexpects hdrain => cases hempty.1
  | closeCall hexpects hdrain => cases hempty.1
  | closeEmptyGroup => cases hempty.1
  | closeEmptyCall => cases hempty.1

theorem placeAll_start_induction {motive : Arrangement → List Role → Prop} {tokens : List Token}
    (hstep : ∀ {a role roles b}, Step a role b → role.Proper → (a.InEmptyGroup → role ≠ .close) →
      motive a (role :: roles) → motive b roles)
    (hblank : .blank ∉ tokens) (hempty : ¬ HasEmptyGroup tokens)
    (hmotive : motive start (Role.ofTokens tokens))
    (h : start.placeAll (Role.ofTokens tokens) = .ok b) : motive b [] := by
  have hlast : b.Coherent ∧ Role.NoEmptyGroup [] ∧
      (b.InEmptyGroup → ([] : List Role).head? ≠ some .close) ∧ motive b [] := by
    refine placeAll_induction (motive := fun a roles => Role.NoEmptyGroup roles ∧
      (a.InEmptyGroup → roles.head? ≠ some .close) ∧ motive a roles) ?_
      coherent_start (Role.proper_of_mem_ofTokens hblank) ?_ h
    · intro a role roles next hnext hproper hall
      rcases hall with ⟨hgroups, hhead, hmotive⟩
      rw [Role.NoEmptyGroup, List.isChain_cons] at hgroups
      refine ⟨hgroups.2, ?_, hstep hnext hproper ?_ hmotive⟩
      · intro hopen hclose
        exact hgroups.1 .close hclose (hnext.inEmptyGroup hopen) rfl
      · intro hopen hclose
        exact hhead hopen (congrArg some hclose)
    · refine ⟨Role.noEmptyGroup_ofTokens hempty, ?_, hmotive⟩
      intro hopen
      cases hopen.1
  exact hlast.2.2.2

end Arrangement

/-! ## The account of an arrangement -/

def Previous.operandCount (previous : Previous) : Nat :=
  (!previous.expectsOperand).toNat

theorem Previous.operandCount_of_closed {previous : Previous}
    (h : previous.expectsOperand = false) : previous.operandCount = 1 := by
  rw [operandCount, h]
  rfl

theorem Previous.operandCount_of_expects {previous : Previous}
    (h : previous.expectsOperand = true) : previous.operandCount = 0 := by
  rw [operandCount, h]
  rfl

theorem Role.joinedTo_of_starts {role : Role} {previous : Previous}
    (h : role.startsOperand = true) : role.joinedTo previous = previous.operandCount := by
  rw [joinedTo, h, Bool.and_true]
  rfl

theorem Role.joinedTo_of_not_starts {role : Role} {previous : Previous}
    (h : role.startsOperand = false) : role.joinedTo previous = 0 := by
  rw [joinedTo, h, Bool.and_false]
  rfl

namespace Arrangement

/-- The program so far leaves what is held, what is complete, and a surplus. -/
def LeavesSurplus (a : Arrangement) (surplus : Nat) : Prop :=
  Program.depth? 0 a.output.reverse =
    some (Pending.heldAll a.pending + (surplus + a.previous.operandCount))

variable {a b : Arrangement} {role : Role} {surplus : Nat}

theorem depth?_reverse_cons {output : List Instruction} {instruction : Instruction}
    {depth after : Nat} (hdepth : Program.depth? 0 output.reverse = some depth)
    (hcount : instruction.operandCount ≤ depth)
    (hafter : depth - instruction.operandCount + 1 = after) :
    Program.depth? 0 (instruction :: output).reverse = some after := by
  have hstep := Instruction.depth?_eq_some.mpr ⟨hcount, hafter⟩
  rw [List.reverse_cons, Program.depth?_append, hdepth, Option.bind_some]
  rw [Program.depth?_cons, hstep]
  rfl

theorem Step.leavesSurplus (h : Step a role b) (hproper : role.Proper)
    (hsurplus : a.LeavesSurplus surplus) (hempty : a.InEmptyGroup → role ≠ .close) :
    b.LeavesSurplus (surplus + role.joinedTo a.previous) := by
  unfold LeavesSurplus at hsurplus ⊢
  cases h with
  | operand _ instruction =>
      have hcount : instruction.operandCount = 0 := by
        rcases hproper with ⟨word, hword⟩
        cases hword <;> rfl
      rw [Role.joinedTo_of_starts rfl]
      apply depth?_reverse_cons hsurplus
      · rw [hcount]
        exact Nat.zero_le _
      · rw [hcount]
        rfl
  | openGroup =>
      rw [Role.joinedTo_of_starts rfl, addOpening, Pending.heldAll_cons, Pending.held]
      rw [Nat.zero_add]
      exact hsurplus
  | openCall =>
      rw [Role.joinedTo_of_starts rfl, addOpening, Pending.heldAll_cons, Pending.held]
      rw [Nat.zero_add]
      exact hsurplus
  | negation hexpects =>
      rw [Previous.operandCount_of_expects hexpects] at hsurplus
      rw [Role.joinedTo_of_not_starts rfl, Pending.heldAll_cons, hsurplus]
      rw [Previous.operandCount_of_expects rfl, Pending.held, Operator.operandCount, Nat.zero_add]
  | between two hexpects =>
      rename_i op
      rw [Previous.operandCount_of_closed hexpects] at hsurplus
      rw [Role.joinedTo_of_not_starts rfl, addOperator]
      cases hrelease : Pending.release op.yieldsTo a.output a.pending
      dsimp only
      rw [Pending.depth?_of_release hsurplus hrelease, Pending.heldAll_cons]
      rw [Previous.operandCount_of_expects rfl, Pending.held, two]
      congr 1
      omega
  | suffix hexpects =>
      rw [Previous.operandCount_of_closed hexpects] at hsurplus
      rw [Role.joinedTo_of_not_starts rfl, Previous.operandCount_of_closed rfl]
      apply depth?_reverse_cons hsurplus
      · show 1 ≤ _
        omega
      · rfl
  | comma hexpects hdrain =>
      rw [Previous.operandCount_of_closed hexpects] at hsurplus
      rw [Role.joinedTo_of_not_starts rfl, Previous.operandCount_of_expects rfl]
      rw [Pending.depth?_of_release hsurplus hdrain, Pending.heldAll_cons, Pending.heldAll_cons]
      rw [Pending.held, Pending.held]
      congr 1
      omega
  | closeGroup hexpects hdrain =>
      rw [Previous.operandCount_of_closed hexpects] at hsurplus
      rw [Role.joinedTo_of_not_starts rfl, Previous.operandCount_of_closed rfl]
      rw [Pending.depth?_of_release hsurplus hdrain, Pending.heldAll_cons, Pending.held]
      rw [Nat.zero_add]
  | closeCall hexpects hdrain =>
      rw [Previous.operandCount_of_closed hexpects] at hsurplus
      rw [Role.joinedTo_of_not_starts rfl, Previous.operandCount_of_closed rfl]
      have hdrained := Pending.depth?_of_release hsurplus hdrain
      rw [Pending.heldAll_cons, Pending.held] at hdrained
      apply depth?_reverse_cons hdrained
      · dsimp only [Instruction.operandCount]
        omega
      · dsimp only [Instruction.operandCount]
        omega
  | closeEmptyGroup => exact absurd rfl (hempty ⟨rfl, rfl⟩)
  | closeEmptyCall output function pending =>
      rw [Previous.operandCount_of_expects rfl, Pending.heldAll_cons, Pending.held] at hsurplus
      rw [Role.joinedTo_of_not_starts rfl, Previous.operandCount_of_closed rfl]
      apply depth?_reverse_cons hsurplus
      · exact Nat.zero_le _
      · show _ - 0 + 1 = Pending.heldAll pending + _
        omega

/-! ## The account of an expression -/

theorem leavesSurplus_of_placeAll {tokens : List Token} (hblank : .blank ∉ tokens)
    (hempty : ¬ HasEmptyGroup tokens)
    (h : start.placeAll (Role.ofTokens tokens) = .ok b) :
    b.LeavesSurplus (juxtapositions tokens) := by
  -- the surplus so far and the juxtapositions to come have a constant sum
  have hlast : ∃ surplus, b.LeavesSurplus surplus ∧
      surplus + Role.juxtapositionsAfter b.previous [] = juxtapositions tokens := by
    refine placeAll_start_induction (motive := fun a roles => ∃ surplus, a.LeavesSurplus surplus ∧
      surplus + Role.juxtapositionsAfter a.previous roles = juxtapositions tokens)
      ?_ hblank hempty ?_ h
    · intro a role roles next hstep hproper hclose hmotive
      rcases hmotive with ⟨surplus, hsurplus, hsum⟩
      refine ⟨_, hstep.leavesSurplus hproper hsurplus hclose, ?_⟩
      rw [hstep.previous_eq, ← hsum, Role.juxtapositionsAfter, Nat.add_assoc]
    · refine ⟨0, rfl, ?_⟩
      rw [Nat.zero_add]
      exact Role.juxtapositionsAfter_start hblank
  rcases hlast with ⟨surplus, hsurplus, hsum⟩
  rw [← hsum]
  exact hsurplus

end Arrangement

theorem depth?_of_arrange {tokens : List Token} {program : Program} (hblank : .blank ∉ tokens)
    (htokens : tokens ≠ []) (hempty : ¬ HasEmptyGroup tokens)
    (h : arrange tokens = .ok program) :
    program.depth? 0 = some (juxtapositions tokens + 1) := by
  rcases Sequencing.bind_eq_ok.mp h with ⟨a, hplace, hfinish⟩
  have hproper := Role.proper_of_mem_ofTokens hblank
  rcases Arrangement.previous_ne_start_of_placeAll Arrangement.coherent_start hproper
    (Role.ofTokens_ne_nil htokens) hplace with ⟨hcoherent, hstart⟩
  rcases Arrangement.drain_of_finish hcoherent hstart hfinish with ⟨hclosed, hdrain⟩
  have hsurplus := Arrangement.leavesSurplus_of_placeAll hblank hempty hplace
  rw [Arrangement.LeavesSurplus] at hsurplus
  rw [Previous.operandCount_of_closed hclosed] at hsurplus
  have hdepth := Pending.depth?_of_release hsurplus hdrain
  rw [List.reverse_reverse] at hdepth
  rw [hdepth, Pending.heldAll, Nat.zero_add]

theorem blank_not_mem_of_tokenize {source : String} {tokens : List Token}
    (h : tokenize source = .ok tokens) : .blank ∉ tokens := by
  rw [tokenize] at h
  split at h
  · rename_i lexemes _
    cases h
    rw [List.mem_filterMap]
    intro hblank
    rcases hblank with ⟨lexeme, _, htoken⟩
    cases lexeme with
    | number | name | blanks => cases htoken
    | symbol character =>
        unfold Lexeme.token? Token.ofSymbol? at htoken
        dsimp only at htoken
        split at htoken <;> cases htoken
  · cases h

/-- The values that are left over are counted exactly, whatever the values are. -/
theorem evaluate_surplus {source : String} {tokens : List Token} {program : Program}
    (htokens : tokenize source = .ok tokens) (hne : tokens ≠ [])
    (hprogram : arrange tokens = .ok program) (hempty : ¬ HasEmptyGroup tokens)
    (environment : Environment) :
    (∀ consumer, evaluate environment source ≠
      .error (.evaluation (.missingOperands consumer))) ∧
    (juxtapositions tokens = 0 → ∀ remaining, evaluate environment source ≠
      .error (.evaluation (.malformed remaining))) ∧
    (0 < juxtapositions tokens →
      (∀ value, evaluate environment source ≠ .ok value) ∧
      (∀ value, evaluate environment source ≠ .error (.evaluation (.notFinite value))) ∧
      ∀ remaining, evaluate environment source = .error (.evaluation (.malformed remaining)) →
        remaining = 1 + juxtapositions tokens) := by
  have hdepth := depth?_of_arrange (blank_not_mem_of_tokenize htokens) hne hempty hprogram
  have houtcome := Program.isOutcome_evaluate environment hdepth
  rw [← evaluate_of_arrange htokens hprogram] at houtcome
  constructor
  · intro consumer h
    rw [h] at houtcome
    exact houtcome
  · constructor
    · intro hnone remaining h
      rw [h, hnone] at houtcome
      exact houtcome.1 rfl
    · intro hpositive
      have hsurplus : juxtapositions tokens + 1 ≠ 1 := by
        omega
      constructor
      · intro value h
        rw [h] at houtcome
        exact hsurplus houtcome
      · constructor
        · intro value h
          rw [h] at houtcome
          exact hsurplus houtcome
        · intro remaining h
          rw [h] at houtcome
          rw [houtcome.2, Nat.add_comm]

theorem evaluate_surplus_of_two_juxtapositions :
    ∃ tokens program, tokenize "pi(ans) ans!" = .ok tokens ∧ arrange tokens = .ok program ∧
      ¬ HasEmptyGroup tokens ∧ juxtapositions tokens = 2 ∧
      ∀ environment remaining, evaluate environment "pi(ans) ans!" =
        .error (.evaluation (.malformed remaining)) → remaining = 3 := by
  have htokens : tokenize "pi(ans) ans!" =
      .ok [.name "pi", .openParen, .name "ans", .closeParen, .name "ans", .suffix '!'] :=
    Sequencing.eq_ok_of_toOption (by decide +kernel)
  have hprogram : arrange
      [.name "pi", .openParen, .name "ans", .closeParen, .name "ans", .suffix '!'] =
        .ok [.number Constant.pi.value, .name "ans", .name "ans", .operator .factorial] := rfl
  have hempty : ¬ HasEmptyGroup
      [.name "pi", .openParen, .name "ans", .closeParen, .name "ans", .suffix '!'] := by
    apply Role.not_hasEmptyGroup
    simp [Role.NoEmptyGroup, Role.ofTokens, Role.attach, Role.attachName, Constant.named?]
  have hcount : juxtapositions
      [.name "pi", .openParen, .name "ans", .closeParen, .name "ans", .suffix '!'] = 2 := rfl
  refine ⟨_, _, htokens, hprogram, hempty, hcount, ?_⟩
  intro environment
  have hsurplus := evaluate_surplus htokens (by simp) hprogram hempty environment
  exact (hsurplus.2.2 (by decide)).2.2

end Calculator
