import Calculator.Proofs.OpenBrackets
import Mathlib.Data.List.Chain

/-!
# The stack of pending operators and brackets

At any time while tokens are arranged, the stack is in order.  An operator that waits directly
on top of another one keeps the operand between them.  The brackets are those that are open
behind the tokens read so far.  And what the last token has left on top of the stack is still
there, so that an operator without its right operand can be named.

The last token is the last one that is no white space.  Whether it is a negation depends on
the token before it, which the arrangement remembers by its class.

The main statement is `inOrder_of_placeAll`.
-/

namespace Calculator

open Token (OpensCall)

/-! ## Operators side by side -/

theorem Operator.yieldsTo_eq_false_iff {upper lower : Operator} :
    upper.yieldsTo lower = false ↔ lower.precedence < upper.precedence ∨
      lower.precedence = upper.precedence ∧ upper.grouping = .right := by
  unfold yieldsTo
  cases upper.grouping with
  | left =>
      rw [decide_eq_false_iff_not, Nat.not_le]
      simp
  | right =>
      rw [decide_eq_false_iff_not, Nat.not_lt]
      simp
      omega

namespace Pending

def OnTopOf : Pending → Pending → Prop
  | .operator upper, .operator lower =>
      upper.yieldsTo lower = false ∧
        (lower.precedence < upper.precedence ∨
          lower.precedence = upper.precedence ∧ upper.grouping = .right)
  | _, _ => True

def isBracket : Pending → Bool
  | operator _ => false
  | group | call _ _ => true

variable {pending : List Pending}

theorem isChain_operator {op : Operator} (h : pending.IsChain OnTopOf)
    (hkeeps : ∀ lower below, pending = .operator lower :: below → op.yieldsTo lower = false) :
    (.operator op :: pending).IsChain OnTopOf := by
  rw [List.isChain_cons]
  refine ⟨?_, h⟩
  intro entry hentry
  cases pending with
  | nil => cases hentry
  | cons top below =>
      cases hentry
      cases entry with
      | operator lower =>
          have hfalse := hkeeps lower below rfl
          exact ⟨hfalse, Operator.yieldsTo_eq_false_iff.mp hfalse⟩
      | group | call => exact trivial

theorem isChain_bracket {bracket : Pending} (hbracket : bracket.isBracket = true)
    (h : pending.IsChain OnTopOf) : (bracket :: pending).IsChain OnTopOf := by
  rw [List.isChain_cons]
  refine ⟨?_, h⟩
  intro entry _
  cases bracket with
  | operator op => cases hbracket
  | group | call => exact trivial

theorem isChain_release (p : Operator → Bool) (output : List Instruction)
    (h : pending.IsChain OnTopOf) : (release p output pending).2.IsChain OnTopOf := by
  rcases exists_of_release p output pending with ⟨waiting, rest, rfl, hrelease, _, _⟩
  rw [hrelease]
  exact h.right_of_append

theorem isChain_operator_release (op : Operator) (output : List Instruction)
    (h : pending.IsChain OnTopOf) :
    (.operator op :: (release op.yieldsTo output pending).2).IsChain OnTopOf := by
  apply isChain_operator (isChain_release _ output h)
  rcases exists_of_release op.yieldsTo output pending with ⟨waiting, rest, _, hrelease, _, hstop⟩
  rw [hrelease]
  exact hstop

/-- No operator but a factorial takes the operand of a negation, and none of these waits. -/
theorem isChain_negate (h : pending.IsChain OnTopOf)
    (hfactorial : .operator .factorial ∉ pending) :
    (.operator .negate :: pending).IsChain OnTopOf := by
  apply isChain_operator h
  rintro lower below rfl
  cases lower with
  | factorial => exact absurd List.mem_cons_self hfactorial
  | add | subtract | multiply | divide | remainder | power | negate => rfl

def openOnes (pending : List Pending) : List Pending :=
  (pending.filter isBracket).reverse

theorem openOnes_bracket {bracket : Pending} (h : bracket.isBracket = true)
    (pending : List Pending) : openOnes (bracket :: pending) = openOnes pending ++ [bracket] := by
  rw [openOnes, List.filter_cons_of_pos h, List.reverse_cons]
  rfl

theorem openOnes_release (p : Operator → Bool) (output : List Instruction)
    (pending : List Pending) : openOnes (release p output pending).2 = openOnes pending := by
  rcases exists_of_release p output pending with ⟨waiting, rest, rfl, hrelease, _, _⟩
  have hwaiting : (waiting.map Pending.operator).filter isBracket = [] := by
    simp [List.filter_eq_nil_iff, isBracket]
  rw [hrelease, openOnes, openOnes, List.filter_append, hwaiting, List.nil_append]

end Pending

/-! ## The tokens that were read -/

namespace Token

def written (tokens : List Token) : List Token :=
  tokens.filter (· ≠ .blank)

def expectOperand (tokens : List Token) : Bool :=
  match tokens.getLast? with
  | none | some (.operator _) | some .openParen | some .comma => true
  | _ => false

/-- The operator that a symbol stands for behind some tokens without white space. -/
def operatorBehind? (tokens : List Token) (symbol : Char) : Option Operator :=
  if expectOperand tokens then (if symbol = '-' then some .negate else none)
  else Operator.between? symbol

theorem written_append_blank (tokens : List Token) :
    written (tokens ++ [.blank]) = written tokens := by
  simp [written]

theorem written_append {word : List Token} (h : .blank ∉ word) (tokens : List Token) :
    written (tokens ++ word) = written tokens ++ word := by
  rw [written, List.filter_append, written, List.append_cancel_left_eq, List.filter_eq_self]
  intro token hmem
  apply decide_eq_true
  rintro rfl
  exact h hmem

theorem expectOperand_append_singleton (tokens : List Token) (token : Token) :
    expectOperand (tokens ++ [token]) = expectOperand [token] := by
  rw [expectOperand, List.getLast?_concat]
  rfl

end Token

theorem Role.Spells.blank_not_mem {word : List Token} {role : Role} (h : Spells word role) :
    .blank ∉ word := by
  cases h <;> simp

/-!
## What one step does

The order of operators, the operator on top and the open brackets are three accounts of the
stack, and a step keeps each of them for a reason of its own.
-/

namespace Arrangement

open Pending (OnTopOf openOnes)
open Token (written expectOperand operatorBehind?)

section

variable {a b : Arrangement} {role : Role} {word read : List Token}

theorem Step.expectsOperand (hstep : a.Step role b) (hword : Role.Spells word role)
    (tokens : List Token) : b.previous.expectsOperand = expectOperand (tokens ++ word) := by
  have hlast (token : Token) (before : List Token) (h : expectOperand [token] =
      b.previous.expectsOperand) : b.previous.expectsOperand =
      expectOperand (tokens ++ (before ++ [token])) := by
    rw [← List.append_assoc, Token.expectOperand_append_singleton, h]
  cases hword with
  | openCall hnone =>
      cases hstep
      exact hlast .openParen [.name _] rfl
  | number | constant | name | openGroup | close | comma | operator | suffix =>
      cases hstep <;> exact hlast _ [] rfl

theorem Step.operator_on_top (hstep : a.Step role b) (hword : Role.Spells word role)
    (hexpects : a.previous.expectsOperand = expectOperand (written read))
    (hprevious : b.previous = .operator) :
    ∃ op below, word = [.operator op.symbol] ∧
      operatorBehind? (written read) op.symbol = some op ∧ b.pending = .operator op :: below := by
  cases hstep with
  | negation hexpected =>
      cases hword
      rw [hexpects] at hexpected
      exact ⟨.negate, _, rfl, by rw [operatorBehind?, hexpected]; rfl, rfl⟩
  | between two hexpected =>
      cases hword
      rw [hexpects] at hexpected
      refine ⟨_, _, rfl, ?_, rfl⟩
      rw [operatorBehind?, hexpected]
      exact Operator.between?_symbol two
  | operand | openGroup | openCall | suffix | comma | closeGroup | closeCall | closeEmptyGroup
  | closeEmptyCall => cases hprevious

theorem Step.isChain (hstep : a.Step role b) (hcoherent : a.Coherent)
    (h : a.pending.IsChain OnTopOf) : b.pending.IsChain OnTopOf := by
  have hdrained {output : List Instruction} {entry : Pending} {below : List Pending}
      (hdrain : Pending.drain a.output a.pending = (output, entry :: below)) :
      below.IsChain OnTopOf := by
    have hrest := Pending.isChain_release (fun _ => true) a.output h
    rw [← Pending.drain, hdrain] at hrest
    exact hrest.tail
  cases hstep with
  | operand => exact h
  | openGroup => exact Pending.isChain_bracket rfl h
  | openCall => exact Pending.isChain_bracket rfl h
  | negation => exact Pending.isChain_negate h hcoherent.factorial_not_mem
  | between => exact Pending.isChain_operator_release _ _ h
  | suffix => exact h
  | comma _ hdrain => exact Pending.isChain_bracket rfl (hdrained hdrain)
  | closeGroup _ hdrain => exact hdrained hdrain
  | closeCall _ hdrain => exact hdrained hdrain
  | closeEmptyGroup => exact h.tail
  | closeEmptyCall => exact h.tail

theorem Step.openOnes_eq (hstep : a.Step role b) (hword : Role.Spells word role)
    (hopens : ¬ OpensCall read word) (h : openOnes a.pending = openBrackets read) :
    openOnes b.pending = openBrackets (read ++ word) := by
  -- a comma and a closing parenthesis release the operators above the last bracket
  have hdrained {output : List Instruction} {entry : Pending} {below : List Pending}
      (hbracket : entry.isBracket = true)
      (hdrain : Pending.drain a.output a.pending = (output, entry :: below)) :
      openBrackets read = openOnes below ++ [entry] := by
    have hrest := Pending.openOnes_release (fun _ => true) a.output a.pending
    rw [← Pending.drain, hdrain, h, Pending.openOnes_bracket hbracket] at hrest
    exact hrest.symm
  cases hstep with
  | operand _ instruction =>
      cases hword with
      | number value =>
          rw [openBrackets_append_singleton (.number value) (by simp)]
          exact h
      | constant | name =>
          rw [openBrackets_append_singleton (.name _) (by simp)]
          exact h
  | openGroup =>
      cases hword
      rw [openBrackets_append hopens (by simp) (by simp), ← h]
      exact Pending.openOnes_bracket rfl _
  | openCall _ function =>
      cases hword with
      | openCall hnone =>
          rw [openBrackets_append hopens (by simp) (by simp), openBrackets_callee hnone, ← h]
          exact Pending.openOnes_bracket rfl _
  | negation =>
      cases hword
      rw [openBrackets_append_singleton (.operator _) (by simp)]
      exact h
  | between =>
      cases hword
      rw [openBrackets_append_singleton (.operator _) (by simp), ← h]
      exact Pending.openOnes_release _ _ _
  | suffix =>
      cases hword
      rw [openBrackets_append_singleton (.suffix _) (by simp)]
      exact h
  | comma _ hdrain =>
      cases hword
      rw [openBrackets_append_comma, hdrained rfl hdrain, List.modifyLast_concat]
      exact Pending.openOnes_bracket rfl _
  | closeGroup _ hdrain =>
      cases hword
      rw [openBrackets_append_close, hdrained rfl hdrain, List.dropLast_concat]
  | closeCall _ hdrain =>
      cases hword
      rw [openBrackets_append_close, hdrained rfl hdrain, List.dropLast_concat]
  | closeEmptyGroup output pending =>
      cases hword
      rw [openBrackets_append_close, ← h, Pending.openOnes_bracket rfl, List.dropLast_concat]
  | closeEmptyCall output function pending =>
      cases hword
      rw [openBrackets_append_close, ← h, Pending.openOnes_bracket rfl, List.dropLast_concat]

end

/-! ## The stack behind the tokens that were read -/

/-- The order that the stack of an arrangement is in, behind the tokens that it has read. -/
structure InOrder (a : Arrangement) (read : List Token) : Prop where
  isChain : a.pending.IsChain OnTopOf
  factorial_not_mem : .operator .factorial ∉ a.pending
  /-- Behind an operator, its entry is on top, and it is the one that lacks an operand. -/
  operator : a.previous = .operator → ∃ before op below,
    written read = before ++ [.operator op.symbol] ∧
    operatorBehind? before op.symbol = some op ∧
    a.pending = .operator op :: below ∧ a.dangling? = some op.symbol
  opening : a.previous = .opening → ∃ bracket below, a.pending = bracket :: below ∧
    (bracket = .group ∨ ∃ function, bracket = .call function 0)
  comma : a.previous = .comma → ∃ function commas below,
    a.pending = .call function commas :: below ∧ 1 ≤ commas
  openOnes : openOnes a.pending = openBrackets read

/-- What is kept while tokens are read: the order of the stack, and what the last token was. -/
structure HasRead (a : Arrangement) (read : List Token) : Prop where
  coherent : a.Coherent
  expectsOperand : a.previous.expectsOperand = expectOperand (written read)
  isChain : a.pending.IsChain OnTopOf
  operator : a.previous = .operator → ∃ before op below,
    written read = before ++ [.operator op.symbol] ∧
    operatorBehind? before op.symbol = some op ∧ a.pending = .operator op :: below
  openOnes : openOnes a.pending = openBrackets read

section

variable {a b : Arrangement} {role : Role} {word read : List Token}

theorem hasRead_start : start.HasRead [] where
  coherent := coherent_start
  expectsOperand := rfl
  isChain := .nil
  operator := nofun
  openOnes := rfl

theorem HasRead.blank (h : a.HasRead read) : a.HasRead (read ++ [.blank]) := by
  have hwritten := Token.written_append_blank read
  refine ⟨h.coherent, ?_, h.isChain, ?_, ?_⟩
  · rw [hwritten]
    exact h.expectsOperand
  · rw [hwritten]
    exact h.operator
  · rw [openBrackets_append_singleton .blank (by simp)]
    exact h.openOnes

theorem HasRead.step (h : a.HasRead read) (hstep : a.Step role b) (hword : Role.Spells word role)
    (hopens : ¬ OpensCall read word) : b.HasRead (read ++ word) := by
  have hwritten := Token.written_append hword.blank_not_mem read
  refine ⟨hstep.coherent h.coherent, ?_, hstep.isChain h.coherent h.isChain, ?_, ?_⟩
  · rw [hwritten]
    exact hstep.expectsOperand hword _
  · intro hprevious
    rcases hstep.operator_on_top hword h.expectsOperand hprevious with
      ⟨op, below, rfl, hbehind, hpending⟩
    exact ⟨_, op, below, hwritten, hbehind, hpending⟩
  · exact hstep.openOnes_eq hword hopens h.openOnes

theorem HasRead.inOrder (h : a.HasRead read) : a.InOrder read := by
  have htop := h.coherent.top
  refine ⟨h.isChain, h.coherent.factorial_not_mem, ?_, ?_, ?_, h.openOnes⟩
  · intro hprevious
    rcases h.operator hprevious with ⟨before, op, below, hwritten, hbehind, hpending⟩
    refine ⟨before, op, below, hwritten, hbehind, hpending, ?_⟩
    rw [dangling?, hprevious, hpending]
  · intro hprevious
    rw [hprevious] at htop
    rcases htop with ⟨below, hpending⟩ | ⟨function, below, hpending⟩
    · exact ⟨_, below, hpending, Or.inl rfl⟩
    · exact ⟨_, below, hpending, Or.inr ⟨function, rfl⟩⟩
  · intro hprevious
    rw [hprevious] at htop
    rcases htop with ⟨function, commas, below, hpending⟩
    exact ⟨function, commas + 1, below, hpending, Nat.le_add_left 1 commas⟩

/-! ## All tokens -/

theorem hasRead_of_placeAll {tokens : List Token} (h : a.HasRead read)
    (hopens : ¬ OpensCall read tokens) (hplace : a.placeAll (Role.ofTokens tokens) = .ok b) :
    b.HasRead (read ++ tokens) := by
  induction tokens using Role.pieceInduction generalizing a read with
  | nil =>
      cases hplace
      rw [List.append_nil]
      exact h
  | single token rest halone ih =>
      rw [Role.ofTokens_single halone, placeAll_cons] at hplace
      rcases Sequencing.bind_eq_ok.mp hplace with ⟨next, hfirst, hrest⟩
      have hnext : next.HasRead (read ++ [token]) := by
        by_cases hblank : token = .blank
        · subst hblank
          cases hfirst
          exact h.blank
        · have hword := Role.spells_alone hblank
          exact h.step (step_of_place h.coherent ⟨_, hword⟩ hfirst) hword hopens
      -- what was read ends with this token, which alone decides whether a call is opened
      have hlast : ¬ OpensCall (read ++ [token]) rest := by
        rw [OpensCall, List.getLast?_concat]
        exact halone
      rw [List.append_cons]
      exact ih hnext hlast hrest
  | callee text rest hnone ih =>
      rw [Role.ofTokens_callee hnone, placeAll_cons] at hplace
      rcases Sequencing.bind_eq_ok.mp hplace with ⟨next, hfirst, hrest⟩
      have hword := Role.Spells.openCall hnone
      have hnext := h.step (step_of_place h.coherent ⟨_, hword⟩ hfirst) hword hopens
      have hlast : ¬ OpensCall (read ++ [.name text, .openParen]) rest := by
        rintro ⟨name, hname, _⟩
        simp at hname
      have hsplit : read ++ .name text :: .openParen :: rest =
          read ++ [.name text, .openParen] ++ rest := by simp
      rw [hsplit]
      exact ih hnext hlast hrest

end

end Arrangement

theorem Role.exists_split_of_ofTokens {tokens : List Token} {done rest : List Role}
    (h : ofTokens tokens = done ++ rest) :
    ∃ read unread, tokens = read ++ unread ∧ ¬ OpensCall read unread ∧ ofTokens read = done ∧
      ofTokens unread = rest := by
  induction tokens using pieceInduction generalizing done with
  | nil =>
      rcases List.append_eq_nil_iff.mp h.symm with ⟨rfl, rfl⟩
      exact ⟨[], [], rfl, not_opensCall_nil [], rfl, rfl⟩
  | single token tokens halone ih =>
      cases done with
      | nil => exact ⟨[], _, rfl, not_opensCall_nil _, rfl, h⟩
      | cons role done =>
          rw [ofTokens_single halone, List.cons_append, List.cons.injEq] at h
          rcases ih h.2 with ⟨read, unread, rfl, hopens, hread, hunread⟩
          have hshort : ¬ OpensCall [token] read := by
            cases read with
            | nil => exact not_opensCall_before_nil _
            | cons next read => exact halone
          refine ⟨token :: read, unread, rfl, ?_, ?_, hunread⟩
          · cases read with
            | nil => exact halone
            | cons next read => rwa [opensCall_cons_cons]
          · rw [ofTokens_single hshort, hread, h.1]
  | callee text tokens hnone ih =>
      cases done with
      | nil => exact ⟨[], _, rfl, not_opensCall_nil _, rfl, h⟩
      | cons role done =>
          rw [ofTokens_callee hnone, List.cons_append, List.cons.injEq] at h
          rcases ih h.2 with ⟨read, unread, rfl, hopens, hread, hunread⟩
          refine ⟨.name text :: .openParen :: read, unread, rfl, ?_, ?_, hunread⟩
          · rw [opensCall_cons_cons]
            cases read with
            | nil =>
                rintro ⟨name, hname, _⟩
                cases hname
            | cons next read => rwa [opensCall_cons_cons]
          · rw [ofTokens_callee hnone, hread, h.1]

/--
Wherever tokens are split, but for the place between a name and the parenthesis of its call,
the arranging comes to the split with the first part and goes on with the second part, and
there the stack is in order.  The arranging comes to no other places.
-/
theorem Arrangement.inOrder_of_placeAll (tokens : List Token) :
    (∀ read unread, tokens = read ++ unread → ¬ OpensCall read unread →
      ∀ a, start.placeAll (Role.ofTokens read) = .ok a →
        a.InOrder read ∧
          start.placeAll (Role.ofTokens tokens) = a.placeAll (Role.ofTokens unread)) ∧
    ∀ done rest, Role.ofTokens tokens = done ++ rest →
      ∃ read unread, tokens = read ++ unread ∧ ¬ OpensCall read unread ∧
        Role.ofTokens read = done ∧ Role.ofTokens unread = rest := by
  constructor
  · rintro read unread rfl hopens a hplace
    refine ⟨(hasRead_of_placeAll hasRead_start (Role.not_opensCall_nil read) hplace).inOrder, ?_⟩
    rw [Role.ofTokens_append hopens, placeAll_append, hplace]
    rfl
  · intro done rest hroles
    exact Role.exists_split_of_ofTokens hroles

theorem Arrangement.inOrder_of_placeAll_of_negation :
    ∃ (read unread : List Token) (a : Arrangement),
      read = [.name "x", .operator '-', .name "max", .openParen, .name "y", .comma, .blank,
        .openParen, .name "z", .operator '^', .operator '-'] ∧
      unread = [.blank, .operator '-', .name "u", .closeParen] ∧ ¬ OpensCall read unread ∧
      start.placeAll (Role.ofTokens read) = .ok a ∧
      a.pending = [.operator .negate, .operator .power, .group, .call "max" 1,
        .operator .subtract] ∧
      a.InOrder read ∧
      start.placeAll (Role.ofTokens (read ++ unread)) = a.placeAll (Role.ofTokens unread) := by
  have hopens (read : List Token) :
      ¬ OpensCall read [.blank, .operator '-', .name "u", .closeParen] :=
    Role.not_opensCall_of_head (by simp)
  exact ⟨_, _, _, rfl, rfl, hopens _, rfl, rfl,
    (inOrder_of_placeAll _).1 _ _ rfl (hopens _) _ rfl⟩

end Calculator
