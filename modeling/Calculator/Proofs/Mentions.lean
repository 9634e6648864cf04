import Calculator.Evaluation
import Calculator.Proofs.Placement

/-!
# Names in programs

A name in an expression is read or called.  Arranging the tokens moves operators and
drops brackets, but it neither loses nor invents a name: the program reads and calls
the names that the tokens read and call.  As a run reaches every instruction, the
names of a program that has a value are all known.
-/

namespace Calculator

/-- What an expression does with a name. -/
inductive Mention where
  | reads (name : String)
  | calls (name : String)

def Instruction.mention? : Instruction → Option Mention
  | name text => some (.reads text)
  | call function _ => some (.calls function)
  | number _ | operator _ => none

def Pending.mention? : Pending → Option Mention
  | call function _ => some (.calls function)
  | operator _ | group => none

def Role.mention? : Role → Option Mention
  | operand instruction => instruction.mention?
  | openCall function => some (.calls function)
  | openGroup | close | comma | operator _ | suffix _ | blank => none

def Program.mentions (program : Program) : List Mention :=
  program.filterMap Instruction.mention?

def Role.mentions (roles : List Role) : List Mention :=
  roles.filterMap Role.mention?

theorem Program.mentions_cons (instruction : Instruction) (program : Program) :
    mentions (instruction :: program) = instruction.mention?.toList ++ mentions program := by
  unfold mentions
  rw [List.filterMap_cons]
  cases instruction.mention? <;> rfl

theorem Program.forall_mem_mentions_cons {p : Mention → Prop} {instruction : Instruction}
    {program : Program} : (∀ mention ∈ mentions (instruction :: program), p mention) ↔
      (∀ mention ∈ instruction.mention?, p mention) ∧ ∀ mention ∈ mentions program, p mention := by
  simp only [mentions_cons, List.forall_mem_append, Option.mem_toList, Option.mem_def]

theorem Role.mentions_cons (role : Role) (roles : List Role) :
    mentions (role :: roles) = role.mention?.toList ++ mentions roles := by
  unfold mentions
  rw [List.filterMap_cons]
  cases role.mention? <;> rfl

theorem Role.forall_mem_mentions_cons {p : Mention → Prop} {role : Role} {roles : List Role} :
    (∀ mention ∈ mentions (role :: roles), p mention) ↔
      (∀ mention ∈ role.mention?, p mention) ∧ ∀ mention ∈ mentions roles, p mention := by
  simp only [mentions_cons, List.forall_mem_append, Option.mem_toList, Option.mem_def]

/-! ## Tokens that call a name -/

theorem Role.infix_of_calls {tokens : List Token} {name : String}
    (h : .calls name ∈ mentions (ofTokens tokens)) : [.name name, .openParen] <:+: tokens := by
  induction tokens using pieceInduction with
  | nil => cases h
  | single token rest hopens ih =>
      rw [ofTokens_single hopens, mentions_cons, List.mem_append, Option.mem_toList] at h
      rcases h with halone | hrest
      · cases token with
        | name text =>
            rw [alone] at halone
            split at halone <;> cases halone
        | number | operator | suffix | openParen | closeParen | comma | blank => cases halone
      · exact List.infix_cons (ih hrest)
  | callee text rest hnone ih =>
      rw [ofTokens_callee hnone, mentions_cons, List.mem_append, Option.mem_toList] at h
      rcases h with hcall | hrest
      · cases hcall
        exact (List.prefix_append [Token.name name, .openParen] rest).isInfix
      · exact List.infix_cons (List.infix_cons (ih hrest))

/-! ## Names while tokens are arranged -/

namespace Pending

theorem mentions_release (p : Operator → Bool) (output : List Instruction)
    (pending : List Pending) :
    Program.mentions (release p output pending).1 = Program.mentions output ∧
      (release p output pending).2.filterMap mention? = pending.filterMap mention? :=
  filterMap_release (fun _ => rfl) (fun _ => rfl) p output pending

theorem mentions_drain {output after : List Instruction} {pending below : List Pending}
    (h : drain output pending = (after, below)) :
    Program.mentions after = Program.mentions output ∧
      below.filterMap mention? = pending.filterMap mention? := by
  have hrelease := mentions_release (fun _ => true) output pending
  rw [← drain, h] at hrelease
  exact hrelease

end Pending

namespace Arrangement

variable {a b : Arrangement} {role : Role}

def mentions (a : Arrangement) : List Mention :=
  Program.mentions a.output ++ a.pending.filterMap Pending.mention?

theorem Step.mentions_perm (h : Step a role b) :
    b.mentions.Perm (role.mention?.toList ++ a.mentions) := by
  cases h with
  | operand _ instruction =>
      show (Program.mentions (instruction :: a.output) ++ _).Perm
        (instruction.mention?.toList ++ _)
      rw [Program.mentions_cons, List.append_assoc]
      exact .refl _
  | openGroup => exact .refl _
  | openCall _ function => exact List.perm_middle
  | negation => exact .refl _
  | between =>
      rename_i op _ _
      have hrelease := Pending.mentions_release op.yieldsTo a.output a.pending
      show (_ ++ List.filterMap _ (Pending.release op.yieldsTo a.output a.pending).2).Perm _
      rw [hrelease.2]
      exact .of_eq (congrArg (· ++ _) hrelease.1)
  | suffix => exact .refl _
  | comma _ hdrain =>
      rcases Pending.mentions_drain hdrain with ⟨houtput, hpending⟩
      unfold mentions
      rw [← houtput, ← hpending]
      exact .refl _
  | closeGroup _ hdrain =>
      rcases Pending.mentions_drain hdrain with ⟨houtput, hpending⟩
      unfold mentions
      rw [← houtput, ← hpending]
      exact .refl _
  | closeCall _ hdrain =>
      rcases Pending.mentions_drain hdrain with ⟨houtput, hpending⟩
      unfold mentions
      rw [← houtput, ← hpending]
      exact List.perm_middle.symm
  | closeEmptyGroup => exact .refl _
  | closeEmptyCall => exact List.perm_middle.symm

end Arrangement

/-- A program mentions exactly what its tokens mention, and equally often. -/
theorem mentions_perm_of_arrange {tokens : List Token} {program : Program}
    (hblank : .blank ∉ tokens) (h : arrange tokens = .ok program) :
    (Role.mentions (Role.ofTokens tokens)).Perm program.mentions := by
  rcases Sequencing.bind_eq_ok.mp h with ⟨a, hplace, hfinish⟩
  have hrun : a.Coherent ∧
      (Role.mentions (Role.ofTokens tokens)).Perm (Role.mentions [] ++ a.mentions) := by
    refine Arrangement.placeAll_induction
      (motive := fun a rest =>
        (Role.mentions (Role.ofTokens tokens)).Perm (Role.mentions rest ++ a.mentions))
      ?_ Arrangement.coherent_start (Role.proper_of_mem_ofTokens hblank) ?_ hplace
    · intro a role rest b hstep _ hperm
      rw [Role.mentions_cons] at hperm
      apply hperm.trans
      apply (List.perm_append_comm.append_right _).trans
      rw [List.append_assoc]
      exact hstep.mentions_perm.symm.append_left _
    · exact .of_eq (List.append_nil _).symm
  rcases Pending.mentions_drain (Arrangement.drain_of_finish_eq_ok hfinish) with
    ⟨houtput, hpending⟩
  apply hrun.2.trans
  show (Program.mentions a.output ++ a.pending.filterMap Pending.mention?).Perm _
  rw [← houtput, ← hpending, Program.mentions, List.filterMap_reverse]
  rw [List.filterMap_nil, List.append_nil]
  exact List.reverse_perm _

/-! ## Programs with a value -/

/-- Whether a name has a meaning where it is used. -/
def Mention.Known (environment : Environment) : Mention → Prop
  | reads name => ∃ value, environment.lookup? name = some value
  | calls name => ∃ function, Builtin.named? name = some function

theorem Machine.known_of_step {environment : Environment} {machine next : Machine}
    {instruction : Instruction} (h : machine.step environment instruction = .ok next) :
    ∀ mention ∈ instruction.mention?, mention.Known environment := by
  intro mention hmention
  rcases Sequencing.bind_eq_ok.mp h with ⟨⟨value, rest⟩, hvalue, _⟩
  cases instruction with
  | number | operator => cases hmention
  | name text =>
      cases hmention
      rw [Machine.value] at hvalue
      split at hvalue
      · rename_i hlookup
        exact ⟨_, hlookup⟩
      · cases hvalue
  | call name count =>
      cases hmention
      rw [Machine.value, Sequencing.mapError_eq_ok, Machine.call] at hvalue
      split at hvalue
      · cases hvalue
      · rename_i hnamed
        exact ⟨_, hnamed⟩

theorem Machine.known_of_run {environment : Environment} {machine last : Machine}
    {program : Program} (h : machine.run environment program = .ok last) :
    ∀ mention ∈ program.mentions, mention.Known environment := by
  induction program generalizing machine with
  | nil => simp [Program.mentions]
  | cons instruction program ih =>
      rw [run_cons] at h
      rcases Sequencing.bind_eq_ok.mp h with ⟨next, hstep, hrun⟩
      rw [Program.forall_mem_mentions_cons]
      exact ⟨known_of_step hstep, ih hrun⟩

theorem known_of_evaluate {environment : Environment} {tokens : List Token} {program : Program}
    {value : Float} (hblank : .blank ∉ tokens) (hprogram : arrange tokens = .ok program)
    (h : program.evaluate environment = .ok value) :
    ∀ mention ∈ Role.mentions (Role.ofTokens tokens), mention.Known environment := by
  rcases Sequencing.bind_eq_ok.mp h with ⟨last, hrun, _⟩
  intro mention hmem
  have hmem' := (mentions_perm_of_arrange hblank hprogram).mem_iff.mp hmem
  exact Machine.known_of_run hrun mention hmem'

end Calculator
