import Calculator.Arrangement
import Calculator.Proofs.Sequencing
import Calculator.Proofs.TokenRoles

/-!
# Single steps of the arrangement

Whether a comma or a parenthesis is accepted, and what it does, is decided by the
token before it and by the innermost bracket.  These two are not independent: an
operator stands on top of the stack right after it was read, and so does a bracket
right after it was opened.  An arrangement in which they agree is called coherent.
In coherent arrangements the tokens that are accepted do one of a few things, which
`Step` lists; later proofs go through this list and never open `place`.
-/

namespace Calculator

/-! ## Released operators -/

namespace Pending

theorem exists_of_release (p : Operator → Bool) (output : List Instruction)
    (pending : List Pending) :
    ∃ (waiting : List Operator) (rest : List Pending),
      pending = waiting.map .operator ++ rest ∧
      release p output pending = (waiting.reverse.map .operator ++ output, rest) ∧
      (∀ op ∈ waiting, p op = true) ∧
      ∀ op below, rest = .operator op :: below → p op = false := by
  induction pending generalizing output with
  | nil => exact ⟨[], [], rfl, rfl, by simp, by simp⟩
  | cons entry pending ih =>
      cases entry with
      | group => exact ⟨[], .group :: pending, rfl, rfl, by simp, by simp⟩
      | call function commas =>
          exact ⟨[], .call function commas :: pending, rfl, rfl, by simp, by simp⟩
      | operator op =>
          cases hop : p op with
          | true =>
              rcases ih (.operator op :: output) with
                ⟨waiting, rest, hpending, hrelease, hall, hstop⟩
              refine ⟨op :: waiting, rest, ?_, ?_, ?_, hstop⟩
              · rw [hpending]
                rfl
              · rw [release, if_pos hop, hrelease]
                simp
              · simpa [hop] using hall
          | false =>
              refine ⟨[], .operator op :: pending, rfl, ?_, by simp, ?_⟩
              · rw [release, hop]
                rfl
              · intro next below h
                cases h
                exact hop

theorem mem_of_mem_release {p : Operator → Bool} {output : List Instruction}
    {pending : List Pending} {entry : Pending} (h : entry ∈ (release p output pending).2) :
    entry ∈ pending := by
  rcases exists_of_release p output pending with ⟨waiting, rest, hpending, hrelease, _, _⟩
  rw [hrelease] at h
  rw [hpending]
  exact List.mem_append_right _ h

theorem filterMap_release {β : Type} {f : Instruction → Option β} {g : Pending → Option β}
    (hf : ∀ op, f (.operator op) = none) (hg : ∀ op, g (.operator op) = none)
    (p : Operator → Bool) (output : List Instruction) (pending : List Pending) :
    (release p output pending).1.filterMap f = output.filterMap f ∧
      (release p output pending).2.filterMap g = pending.filterMap g := by
  rcases exists_of_release p output pending with ⟨waiting, rest, rfl, hrelease, _, _⟩
  have hreleased : (waiting.reverse.map Instruction.operator).filterMap f = [] := by
    rw [List.filterMap_map]
    exact List.filterMap_eq_nil_iff.mpr fun op _ => hf op
  have hwaiting : (waiting.map Pending.operator).filterMap g = [] := by
    rw [List.filterMap_map]
    exact List.filterMap_eq_nil_iff.mpr fun op _ => hg op
  rw [hrelease, List.filterMap_append, List.filterMap_append, hreleased, hwaiting]
  exact ⟨rfl, rfl⟩

theorem drain_ne_operator {output after : List Instruction} {pending below : List Pending}
    {op : Operator} : drain output pending ≠ (after, .operator op :: below) := by
  intro h
  rcases exists_of_release (fun _ => true) output pending with
    ⟨waiting, rest, _, hrelease, _, hstop⟩
  rw [drain, hrelease] at h
  cases h
  exact Bool.noConfusion (hstop op below rfl)

theorem release_negate {pending : List Pending} (h : .operator .factorial ∉ pending)
    (output : List Instruction) :
    release Operator.negate.yieldsTo output pending = (output, pending) := by
  cases pending with
  | nil => rfl
  | cons entry pending =>
      cases entry with
      | group => rfl
      | call function commas => rfl
      | operator op =>
          cases op with
          | factorial => exact absurd List.mem_cons_self h
          | add | subtract | multiply | divide | remainder | power | negate => rfl

end Pending

theorem Operator.between?_symbol {op : Operator} (two : op.operandCount = 2) :
    between? op.symbol = some op := by
  cases op <;> first
    | rfl
    | cases two

/-! ## The last token and the top of the stack -/

/-- What is on top of the stack after each kind of token. -/
def Previous.Tops : Previous → List Pending → Prop
  | .start, pending => pending = []
  | .operator, pending => ∃ op below, pending = .operator op :: below
  | .opening, pending =>
      (∃ below, pending = .group :: below) ∨ ∃ function below, pending = .call function 0 :: below
  | .comma, pending => ∃ function commas below, pending = .call function (commas + 1) :: below
  | .operand, _ | .suffix, _ | .closing, _ => True

namespace Arrangement

structure Coherent (a : Arrangement) : Prop where
  top : a.previous.Tops a.pending
  factorial_not_mem : .operator .factorial ∉ a.pending

theorem coherent_start : start.Coherent :=
  ⟨rfl, List.not_mem_nil⟩

/-- What the accepted tokens do, by their roles. -/
inductive Step : Arrangement → Role → Arrangement → Prop where
  | operand (a : Arrangement) (instruction : Instruction) :
      Step a (.operand instruction) (a.addOperand instruction)
  | openGroup (a : Arrangement) : Step a .openGroup (a.addOpening .group)
  | openCall (a : Arrangement) (function : String) :
      Step a (.openCall function) (a.addOpening (.call function 0))
  | negation {a : Arrangement} : a.previous.expectsOperand = true →
      Step a (.operator '-') ⟨a.output, .operator .negate :: a.pending, .operator⟩
  | between {a : Arrangement} {op : Operator} :
      op.operandCount = 2 → a.previous.expectsOperand = false →
      Step a (.operator op.symbol) (a.addOperator op)
  | suffix {a : Arrangement} : a.previous.expectsOperand = false →
      Step a (.suffix '!') ⟨.operator .factorial :: a.output, a.pending, .suffix⟩
  | comma {a : Arrangement} {output : List Instruction} {function : String} {commas : Nat}
      {pending : List Pending} : a.previous.expectsOperand = false →
      Pending.drain a.output a.pending = (output, .call function commas :: pending) →
      Step a .comma ⟨output, .call function (commas + 1) :: pending, .comma⟩
  | closeGroup {a : Arrangement} {output : List Instruction} {pending : List Pending} :
      a.previous.expectsOperand = false →
      Pending.drain a.output a.pending = (output, .group :: pending) →
      Step a .close ⟨output, pending, .closing⟩
  | closeCall {a : Arrangement} {output : List Instruction} {function : String} {commas : Nat}
      {pending : List Pending} : a.previous.expectsOperand = false →
      Pending.drain a.output a.pending = (output, .call function commas :: pending) →
      Step a .close ⟨.call function (commas + 1) :: output, pending, .closing⟩
  | closeEmptyGroup (output : List Instruction) (pending : List Pending) :
      Step ⟨output, .group :: pending, .opening⟩ .close ⟨output, pending, .closing⟩
  | closeEmptyCall (output : List Instruction) (function : String) (pending : List Pending) :
      Step ⟨output, .call function 0 :: pending, .opening⟩ .close
        ⟨.call function 0 :: output, pending, .closing⟩

variable {a b : Arrangement} {role : Role}

theorem dangling?_of_not_expectsOperand (h : a.previous.expectsOperand = false) :
    a.dangling? = none := by
  rcases a with ⟨output, pending, previous⟩
  cases previous <;> first
    | rfl
    | cases h

theorem step_of_placeOperator {symbol : Char} (hcoherent : a.Coherent)
    (h : a.placeOperator symbol = .ok b) : Step a (.operator symbol) b := by
  rw [placeOperator] at h
  split at h
  · cases h
  · rename_i op hbetween
    have hsymbol : op.operandCount = 2 ∧ symbol = op.symbol := by
      unfold Operator.between? at hbetween
      split at hbetween <;> cases hbetween <;> exact ⟨rfl, rfl⟩
    rw [hsymbol.2]
    cases hexpects : a.previous.expectsOperand with
    | false =>
        rw [hexpects] at h
        cases h
        exact .between hsymbol.1 hexpects
    | true =>
        rw [hexpects] at h
        by_cases hop : op = .subtract
        · subst hop
          cases h
          rw [addOperator, Pending.release_negate hcoherent.factorial_not_mem]
          exact .negation hexpects
        · simp [hop] at h

theorem step_of_placeSuffix {symbol : Char} (h : a.placeSuffix symbol = .ok b) :
    Step a (.suffix symbol) b := by
  rw [placeSuffix] at h
  split at h
  · cases h
  · rename_i op hbehind
    have hsymbol : op = .factorial ∧ symbol = '!' := by
      unfold Operator.behind? at hbehind
      split at hbehind <;> cases hbehind
      exact ⟨rfl, rfl⟩
    rcases hsymbol with ⟨rfl, rfl⟩
    cases hexpects : a.previous.expectsOperand with
    | true =>
        rw [hexpects] at h
        cases h
    | false =>
        rw [hexpects] at h
        cases h
        exact .suffix hexpects

theorem step_of_placeComma (hcoherent : a.Coherent) (h : a.placeComma = .ok b) :
    Step a .comma b := by
  rcases a with ⟨output, pending, previous⟩
  have htop := hcoherent.top
  cases previous with
  | start =>
      cases htop
      cases h
  | operator =>
      rcases htop with ⟨op, below, hpending⟩
      cases hpending
      cases h
  | opening =>
      rcases htop with ⟨below, hpending⟩ | ⟨function, below, hpending⟩
      · cases hpending
        cases h
      · cases hpending
        cases h
  | comma =>
      rcases htop with ⟨function, commas, below, hpending⟩
      cases hpending
      cases h
  | operand | suffix | closing =>
      rw [placeComma, dangling?] at h
      dsimp only at h
      split at h
      · rename_i hdrain
        cases h
        exact .comma rfl hdrain
      · cases h

theorem step_of_placeClose (hcoherent : a.Coherent) (h : a.placeClose = .ok b) :
    Step a .close b := by
  rcases a with ⟨output, pending, previous⟩
  have htop := hcoherent.top
  cases previous with
  | start =>
      cases htop
      cases h
  | operator =>
      rcases htop with ⟨op, below, hpending⟩
      cases hpending
      cases h
  | opening =>
      rcases htop with ⟨below, hpending⟩ | ⟨function, below, hpending⟩
      · cases hpending
        cases h
        exact .closeEmptyGroup output below
      · cases hpending
        cases h
        exact .closeEmptyCall output function below
  | comma =>
      rcases htop with ⟨function, commas, below, hpending⟩
      cases hpending
      cases h
  | operand | suffix | closing =>
      rw [placeClose, dangling?] at h
      dsimp only at h
      split at h
      · cases h
      · rename_i hdrain
        cases h
        exact .closeCall rfl hdrain
      · rename_i entry below hcall hdrain
        cases h
        cases entry with
        | group => exact .closeGroup rfl hdrain
        | call function commas => exact absurd rfl (hcall function commas)
        | operator op => exact absurd hdrain Pending.drain_ne_operator

theorem step_of_place (hcoherent : a.Coherent) (hproper : role.Proper)
    (h : a.place role = .ok b) : Step a role b := by
  cases role with
  | operand instruction =>
      cases h
      exact .operand a instruction
  | openGroup =>
      cases h
      exact .openGroup a
  | openCall function =>
      cases h
      exact .openCall a function
  | close => exact step_of_placeClose hcoherent h
  | comma => exact step_of_placeComma hcoherent h
  | operator symbol => exact step_of_placeOperator hcoherent h
  | suffix symbol => exact step_of_placeSuffix h
  | blank =>
      rcases hproper with ⟨word, hword⟩
      cases hword

/-! ## Steps from coherent arrangements -/

theorem Step.coherent (h : Step a role b) (hcoherent : a.Coherent) : b.Coherent := by
  have hfactorial := hcoherent.factorial_not_mem
  -- what is left after a release was there before
  have hrest : ∀ p, Pending.operator .factorial ∉ (Pending.release p a.output a.pending).2 := by
    intro p hmem
    exact hfactorial (Pending.mem_of_mem_release hmem)
  cases h with
  | operand => exact ⟨trivial, hfactorial⟩
  | openGroup => exact ⟨Or.inl ⟨_, rfl⟩, by simpa [addOpening] using hfactorial⟩
  | openCall => exact ⟨Or.inr ⟨_, _, rfl⟩, by simpa [addOpening] using hfactorial⟩
  | negation hexpects => exact ⟨⟨_, _, rfl⟩, by simpa using hfactorial⟩
  | between two hexpects =>
      rename_i op
      refine ⟨⟨_, _, rfl⟩, ?_⟩
      intro hmem
      rcases List.mem_cons.mp hmem with heq | hmem
      · cases heq
        cases two
      · exact hrest _ hmem
  | suffix hexpects => exact ⟨trivial, hfactorial⟩
  | comma hexpects hdrain =>
      have hpending := hrest fun _ => true
      rw [← Pending.drain, hdrain] at hpending
      exact ⟨⟨_, _, _, rfl⟩, by simpa using hpending⟩
  | closeGroup hexpects hdrain =>
      have hpending := hrest fun _ => true
      rw [← Pending.drain, hdrain] at hpending
      exact ⟨trivial, by simpa using hpending⟩
  | closeCall hexpects hdrain =>
      have hpending := hrest fun _ => true
      rw [← Pending.drain, hdrain] at hpending
      exact ⟨trivial, by simpa using hpending⟩
  | closeEmptyGroup => exact ⟨trivial, by simpa using hfactorial⟩
  | closeEmptyCall => exact ⟨trivial, by simpa using hfactorial⟩

theorem Step.previous_ne_start (h : Step a role b) : b.previous ≠ .start := by
  cases h <;> exact Previous.noConfusion

/-! ## Lists of roles in sequence -/

theorem placeAll_cons (a : Arrangement) (role : Role) (roles : List Role) :
    a.placeAll (role :: roles) = a.place role >>= fun next => next.placeAll roles :=
  List.foldlM_cons

theorem placeAll_append (a : Arrangement) (first second : List Role) :
    a.placeAll (first ++ second) = a.placeAll first >>= fun next => next.placeAll second :=
  List.foldlM_append

theorem placeAll_concat (a : Arrangement) (roles : List Role) (role : Role) :
    a.placeAll (roles ++ [role]) = a.placeAll roles >>= fun next => next.place role :=
  Sequencing.foldlM_concat place a roles role

/-- Induction over a sequence of tokens: what holds of an arrangement and of the roles to come. -/
theorem placeAll_induction {motive : Arrangement → List Role → Prop} {roles : List Role}
    (hstep : ∀ {a role roles b}, Step a role b → role.Proper →
      motive a (role :: roles) → motive b roles)
    (hcoherent : a.Coherent) (hproper : ∀ role ∈ roles, role.Proper) (hmotive : motive a roles)
    (h : a.placeAll roles = .ok b) : b.Coherent ∧ motive b [] := by
  induction roles generalizing a with
  | nil =>
      cases h
      exact ⟨hcoherent, hmotive⟩
  | cons role roles ih =>
      rw [List.forall_mem_cons] at hproper
      rw [placeAll_cons] at h
      rcases Sequencing.bind_eq_ok.mp h with ⟨next, hplace, hrest⟩
      have hnext := step_of_place hcoherent hproper.1 hplace
      exact ih (hnext.coherent hcoherent) hproper.2 (hstep hnext hproper.1 hmotive) hrest

/-- Only without any token is the start still directly before the end. -/
theorem previous_ne_start_of_placeAll {roles : List Role} (hcoherent : a.Coherent)
    (hproper : ∀ role ∈ roles, role.Proper) (hroles : roles ≠ [])
    (h : a.placeAll roles = .ok b) : b.Coherent ∧ b.previous ≠ .start := by
  have hlast : b.Coherent ∧ (b.previous = .start → [] = roles) := by
    refine placeAll_induction (motive := fun a rest => a.previous = .start → rest = roles)
      ?_ hcoherent hproper (fun _ => rfl) h
    intro a role rest next hstep _ _ hstart
    exact absurd hstart hstep.previous_ne_start
  constructor
  · exact hlast.1
  · intro hstart
    exact hroles (hlast.2 hstart).symm

theorem drain_of_finish_eq_ok {program : Program} (h : a.finish = .ok program) :
    Pending.drain a.output a.pending = (program.reverse, []) := by
  rw [finish] at h
  split at h
  · cases h
  · split at h
    · rename_i hdrain
      cases h
      rw [hdrain, List.reverse_reverse]
    · cases h

theorem drain_of_finish {program : Program} (hcoherent : a.Coherent)
    (hstart : a.previous ≠ .start) (h : a.finish = .ok program) :
    a.previous.expectsOperand = false ∧
      Pending.drain a.output a.pending = (program.reverse, []) := by
  rcases a with ⟨output, pending, previous⟩
  have htop := hcoherent.top
  cases previous with
  | start => exact absurd rfl hstart
  | operator =>
      rcases htop with ⟨op, below, hpending⟩
      cases hpending
      cases h
  | opening =>
      rcases htop with ⟨below, hpending⟩ | ⟨function, below, hpending⟩
      · cases hpending
        cases h
      · cases hpending
        cases h
  | comma =>
      rcases htop with ⟨function, commas, below, hpending⟩
      cases hpending
      cases h
  | operand | suffix | closing => exact ⟨rfl, drain_of_finish_eq_ok h⟩

end Arrangement
end Calculator
