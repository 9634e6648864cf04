import Calculator.Proofs.Placement

/-!
# Expressions inside expressions

Tokens inside a group are arranged as they would be alone: the group keeps the
operators before it from being released, and what it emits goes on top of the output
before it.  A context is what surrounds an arrangement in this way, and it may also
put other instructions in the place of operands.  The steps of an arrangement can be
followed in every context, so a group adds the program of its tokens to the output,
wherever it stands and whatever waits before it.
-/

namespace Calculator
namespace Arrangement

variable {a b : Arrangement} {role : Role}

/-! ## Steps are taken -/

theorem Step.place (h : Step a role b) (hcoherent : a.Coherent) : a.place role = .ok b := by
  cases h with
  | operand | openGroup | openCall | closeEmptyGroup | closeEmptyCall => rfl
  | negation hexpects =>
      have hrelease := Pending.release_negate hcoherent.factorial_not_mem a.output
      rw [Arrangement.place, placeOperator]
      simp only [Operator.between?, hexpects, Bool.not_true, addOperator, hrelease]
      rfl
  | between two hexpects =>
      rw [Arrangement.place, placeOperator, Operator.between?_symbol two]
      simp only [hexpects, Bool.not_false, if_true]
  | suffix hexpects =>
      rw [Arrangement.place, placeSuffix]
      simp only [Operator.behind?, hexpects]
      rfl
  | comma hexpects hdrain =>
      rw [Arrangement.place, placeComma, dangling?_of_not_expectsOperand hexpects, hdrain]
      cases hprevious : a.previous with
      | start | operand | operator | suffix | closing => rfl
      | opening | comma =>
          rw [hprevious] at hexpects
          cases hexpects
  | closeGroup hexpects hdrain =>
      rw [Arrangement.place, placeClose, dangling?_of_not_expectsOperand hexpects, hdrain]
  | closeCall hexpects hdrain =>
      rw [Arrangement.place, placeClose, dangling?_of_not_expectsOperand hexpects, hdrain]
      cases hprevious : a.previous with
      | start | operand | operator | suffix | closing => rfl
      | opening | comma =>
          rw [hprevious] at hexpects
          cases hexpects

theorem finish_of_drain {program : Program} (hclosed : a.previous.expectsOperand = false)
    (h : Pending.drain a.output a.pending = (program.reverse, [])) :
    a.finish = .ok program := by
  rw [finish, dangling?_of_not_expectsOperand hclosed, h]
  dsimp only
  rw [List.reverse_reverse]

end Arrangement

/-! ## Contexts -/

/-- What surrounds an arrangement, and what stands in it for each instruction. -/
structure Context where
  image : Instruction → Program
  /-- The output before the arrangement, latest first. -/
  before : List Instruction
  /-- What is pending around the arrangement, innermost first. -/
  around : List Pending
  image_operator : ∀ op, image (.operator op) = [.operator op]
  image_call : ∀ function count, image (.call function count) = [.call function count]
  /-- Nothing that is pending around the arrangement is released from inside. -/
  release_around : ∀ p output, Pending.release p output around = (output, around)

namespace Context

variable (C : Context)

def output (inside : List Instruction) : List Instruction :=
  (inside.flatMap fun instruction => (C.image instruction).reverse) ++ C.before

/-- Whether the second arrangement is the first one in the context. -/
structure Surrounds (a a' : Arrangement) : Prop where
  output : a'.output = C.output a.output
  pending : a'.pending = a.pending ++ C.around
  expects : a'.previous.expectsOperand = a.previous.expectsOperand
  opening : a.previous = .opening → a'.previous = .opening

theorem output_cons (instruction : Instruction) (inside : List Instruction) :
    C.output (instruction :: inside) = (C.image instruction).reverse ++ C.output inside := by
  rw [output, List.flatMap_cons, List.append_assoc]
  rfl

theorem output_cons_of_image {instruction : Instruction}
    (h : C.image instruction = [instruction]) (inside : List Instruction) :
    C.output (instruction :: inside) = instruction :: C.output inside := by
  rw [output_cons, h]
  rfl

theorem release_output (p : Operator → Bool) (inside : List Instruction)
    (pending : List Pending) :
    Pending.release p (C.output inside) (pending ++ C.around) =
      (C.output (Pending.release p inside pending).1,
        (Pending.release p inside pending).2 ++ C.around) := by
  induction pending generalizing inside with
  | nil => exact C.release_around p (C.output inside)
  | cons entry pending ih =>
      cases entry with
      | group => rfl
      | call function commas => rfl
      | operator op =>
          rw [List.cons_append, Pending.release, Pending.release]
          split
          · rw [← C.output_cons_of_image (C.image_operator op), ih]
          · rfl

variable {C} {a a' b : Arrangement} {role : Role} {roles : List Role}

theorem Surrounds.drain (h : C.Surrounds a a') {inside : List Instruction}
    {pending : List Pending} (hdrain : Pending.drain a.output a.pending = (inside, pending)) :
    Pending.drain a'.output a'.pending = (C.output inside, pending ++ C.around) := by
  rw [Pending.drain] at hdrain
  rw [h.output, h.pending, Pending.drain, C.release_output, hdrain]

theorem Surrounds.exists_step (h : C.Surrounds a a') (hstep : a.Step role b)
    (hrole : ∀ instruction, role = .operand instruction → C.image instruction = [instruction]) :
    ∃ b', a'.Step role b' ∧ C.Surrounds b b' := by
  cases hstep with
  | operand _ instruction =>
      refine ⟨_, .operand a' instruction, ?_, h.pending, rfl, nofun⟩
      show instruction :: a'.output = _
      rw [h.output]
      exact (C.output_cons_of_image (hrole instruction rfl) a.output).symm
  | openGroup =>
      refine ⟨_, .openGroup a', h.output, ?_, rfl, fun _ => rfl⟩
      exact congrArg (Pending.group :: ·) h.pending
  | openCall _ function =>
      refine ⟨_, .openCall a' function, h.output, ?_, rfl, fun _ => rfl⟩
      exact congrArg (Pending.call function 0 :: ·) h.pending
  | negation hexpects =>
      refine ⟨_, .negation (h.expects.trans hexpects), h.output, ?_, rfl, nofun⟩
      exact congrArg (Pending.operator .negate :: ·) h.pending
  | between two hexpects =>
      rename_i op
      have hrelease := C.release_output op.yieldsTo a.output a.pending
      rw [← h.output, ← h.pending] at hrelease
      refine ⟨_, .between two (h.expects.trans hexpects), ?_, ?_, rfl, nofun⟩
      · exact congrArg Prod.fst hrelease
      · exact congrArg (fun released => Pending.operator op :: released.2) hrelease
  | suffix hexpects =>
      refine ⟨_, .suffix (h.expects.trans hexpects), ?_, h.pending, rfl, nofun⟩
      rw [C.output_cons_of_image (C.image_operator .factorial), h.output]
  | comma hexpects hdrain =>
      exact ⟨_, .comma (h.expects.trans hexpects) (h.drain hdrain), rfl, rfl, rfl, nofun⟩
  | closeGroup hexpects hdrain =>
      exact ⟨_, .closeGroup (h.expects.trans hexpects) (h.drain hdrain), rfl, rfl, rfl, nofun⟩
  | closeCall hexpects hdrain =>
      refine ⟨_, .closeCall (h.expects.trans hexpects) (h.drain hdrain), ?_, rfl, rfl, nofun⟩
      rw [C.output_cons_of_image (C.image_call _ _)]
  | closeEmptyGroup inside pending =>
      rcases a' with ⟨output', pending', previous'⟩
      rcases h with ⟨rfl, rfl, _, hopening⟩
      cases hopening rfl
      exact ⟨_, .closeEmptyGroup _ _, rfl, rfl, rfl, nofun⟩
  | closeEmptyCall inside function pending =>
      rcases a' with ⟨output', pending', previous'⟩
      rcases h with ⟨rfl, rfl, _, hopening⟩
      cases hopening rfl
      refine ⟨_, .closeEmptyCall _ _ _, ?_, rfl, rfl, nofun⟩
      rw [C.output_cons_of_image (C.image_call _ _)]

theorem Surrounds.exists_placeAll (h : C.Surrounds a a') (hcoherent : a.Coherent)
    (hcoherent' : a'.Coherent) (hproper : ∀ role ∈ roles, role.Proper)
    (hroles : ∀ instruction, .operand instruction ∈ roles → C.image instruction = [instruction])
    (hplace : a.placeAll roles = .ok b) :
    ∃ b', a'.placeAll roles = .ok b' ∧ C.Surrounds b b' := by
  induction roles generalizing a a' with
  | nil =>
      cases hplace
      exact ⟨a', rfl, h⟩
  | cons role roles ih =>
      rw [List.forall_mem_cons] at hproper
      rw [Arrangement.placeAll_cons] at hplace
      rcases Sequencing.bind_eq_ok.mp hplace with ⟨next, hfirst, hrest⟩
      have hstep := Arrangement.step_of_place hcoherent hproper.1 hfirst
      have hrole : ∀ instruction, role = .operand instruction →
          C.image instruction = [instruction] := by
        intro instruction heq
        exact hroles instruction (heq ▸ List.mem_cons_self)
      rcases h.exists_step hstep hrole with ⟨next', hstep', hnext⟩
      have hroles' : ∀ instruction, .operand instruction ∈ roles →
          C.image instruction = [instruction] := by
        intro instruction hmem
        exact hroles instruction (List.mem_cons_of_mem role hmem)
      rcases ih hnext (hstep.coherent hcoherent) (hstep'.coherent hcoherent') hproper.2 hroles'
        hrest with ⟨b', hplace', hb⟩
      refine ⟨b', ?_, hb⟩
      rw [Arrangement.placeAll_cons, hstep'.place hcoherent']
      exact hplace'

theorem Surrounds.exists_placeAll_of_finish {program : Program} (h : C.Surrounds .start a)
    (hcoherent : a.Coherent) (hproper : ∀ role ∈ roles, role.Proper) (hne : roles ≠ [])
    (hroles : ∀ instruction, .operand instruction ∈ roles → C.image instruction = [instruction])
    (hplace : Arrangement.start.placeAll roles = .ok b) (hfinish : b.finish = .ok program) :
    ∃ b', a.placeAll roles = .ok b' ∧ b'.Coherent ∧ b'.previous.expectsOperand = false ∧
      Pending.drain b'.output b'.pending = (C.output program.reverse, C.around) := by
  have hstart := Arrangement.coherent_start
  rcases h.exists_placeAll hstart hcoherent hproper hroles hplace with ⟨b', hplace', hb⟩
  rcases Arrangement.previous_ne_start_of_placeAll hstart hproper hne hplace with
    ⟨hcoherent_b, hprevious⟩
  rcases Arrangement.drain_of_finish hcoherent_b hprevious hfinish with ⟨hclosed, hdrain⟩
  have hcoherent_b' :=
    (Arrangement.previous_ne_start_of_placeAll hcoherent hproper hne hplace').1
  exact ⟨b', hplace', hcoherent_b', hb.expects.trans hclosed, hb.drain hdrain⟩

theorem output_of_image (h : ∀ instruction, C.image instruction = [instruction])
    (inside : List Instruction) : C.output inside = inside ++ C.before := by
  rw [output, funext h]
  exact congrArg (· ++ C.before) (List.flatMap_singleton' inside)

/-! ## Groups and calls -/

def group (a : Arrangement) : Context where
  image := fun instruction => [instruction]
  before := a.output
  around := .group :: a.pending
  image_operator := fun _ => rfl
  image_call := fun _ _ => rfl
  release_around := fun _ _ => rfl

theorem surrounds_group (a : Arrangement) :
    (group a).Surrounds .start (a.addOpening .group) :=
  ⟨rfl, rfl, rfl, nofun⟩

def call (function : String) (commas : Nat) (output : List Instruction)
    (pending : List Pending) : Context where
  image := fun instruction => [instruction]
  before := output
  around := .call function commas :: pending
  image_operator := fun _ => rfl
  image_call := fun _ _ => rfl
  release_around := fun _ _ => rfl

theorem surrounds_call {function : String} {commas : Nat} {output : List Instruction}
    {pending : List Pending} {previous : Previous} (h : previous.expectsOperand = true) :
    (call function commas output pending).Surrounds .start
      ⟨output, .call function commas :: pending, previous⟩ :=
  ⟨rfl, rfl, h, nofun⟩

end Context

/-- A group adds the program of its tokens to the output, and leaves what was pending. -/
theorem Arrangement.placeAll_group {a b : Arrangement} {roles : List Role} {program : Program}
    (hcoherent : a.Coherent) (hproper : ∀ role ∈ roles, role.Proper) (hroles : roles ≠ [])
    (hplace : start.placeAll roles = .ok b) (hfinish : b.finish = .ok program) :
    a.placeAll (.openGroup :: roles ++ [.close]) =
      .ok ⟨program.reverse ++ a.output, a.pending, .closing⟩ := by
  have hopen := Step.openGroup a
  rcases (Context.surrounds_group a).exists_placeAll_of_finish (hopen.coherent hcoherent) hproper
    hroles (fun _ _ => rfl) hplace hfinish with ⟨b', hplace', hcoherent', hclosed, hdrain⟩
  rw [Context.output_of_image (fun _ => rfl)] at hdrain
  rw [List.cons_append, placeAll_cons, hopen.place hcoherent, Sequencing.ok_bind,
    placeAll_concat, hplace']
  exact (Step.closeGroup hclosed hdrain).place hcoherent'

end Calculator
