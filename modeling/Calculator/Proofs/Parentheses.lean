import Calculator.Proofs.Contexts

/-!
# Expressions in parentheses

Tokens that can be arranged alone can be put between parentheses, and then between the
parentheses and commas of a call.  This holds of all tokens that can be arranged, whether
they are an expression or not.  A bracket is a frame: nothing below it is released while
the tokens inside are arranged, and what ends them releases what the end of the tokens
would have released.  So each of them adds the program that it has alone, and the bracket
of the call is on top again with one comma more.
-/

namespace Calculator

/-- Whether some tokens, at least one and none of them a blank, are arranged into a program. -/
structure ArrangesTo (tokens : List Token) (program : Program) : Prop where
  ne_nil : tokens ≠ []
  blank_not_mem : .blank ∉ tokens
  arrange_eq : arrange tokens = .ok program

/-! ## Arguments of a call -/

namespace ArrangesTo

variable {tokens : List Token} {program : Program} {function : String} {commas : Nat}
  {output : List Instruction} {pending : List Pending} {previous : Previous}

theorem exists_placeAll (h : ArrangesTo tokens program)
    (hcoherent : (Arrangement.mk output (.call function commas :: pending) previous).Coherent)
    (hexpects : previous.expectsOperand = true) :
    ∃ b, Arrangement.placeAll ⟨output, .call function commas :: pending, previous⟩
        (Role.ofTokens tokens) = .ok b ∧
      b.Coherent ∧ b.previous.expectsOperand = false ∧
      Pending.drain b.output b.pending =
        (program.reverse ++ output, .call function commas :: pending) := by
  rcases Sequencing.bind_eq_ok.mp h.arrange_eq with ⟨alone, hplace, hfinish⟩
  rcases (Context.surrounds_call hexpects).exists_placeAll_of_finish hcoherent
    (Role.proper_of_mem_ofTokens h.blank_not_mem) (Role.ofTokens_ne_nil h.ne_nil)
    (fun _ _ => rfl) hplace hfinish with ⟨b, hplace', hcoherent', hclosed, hdrain⟩
  rw [Context.output_of_image (fun _ => rfl)] at hdrain
  exact ⟨b, hplace', hcoherent', hclosed, hdrain⟩

theorem placeAll_arguments {words : List (List Token)} {programs : List Program}
    (h : ArrangesTo tokens program) (hrest : List.Forall₂ ArrangesTo words programs)
    (hcoherent : (Arrangement.mk output (.call function commas :: pending) previous).Coherent)
    (hexpects : previous.expectsOperand = true) :
    Arrangement.placeAll ⟨output, .call function commas :: pending, previous⟩
        (Role.ofTokens ([Token.comma].intercalate (tokens :: words) ++ [.closeParen])) =
      .ok ⟨.call function (commas + (tokens :: words).length) ::
        ((program :: programs).flatten.reverse ++ output), pending, .closing⟩ := by
  induction hrest generalizing tokens program commas output previous with
  | nil =>
      rcases h.exists_placeAll hcoherent hexpects with ⟨b, hb, hcoherent', hclosed, hdrain⟩
      have hclose := (Arrangement.Step.closeCall hclosed hdrain).place hcoherent'
      rw [List.intercalate_singleton, Role.ofTokens_append_of_head (by simp)]
      rw [Role.ofTokens_cons, Role.attach, Role.ofTokens_nil, Arrangement.placeAll_concat, hb]
      rw [Sequencing.ok_bind, hclose]
      simp
  | @cons second next words programs hsecond _ ih =>
      rcases h.exists_placeAll hcoherent hexpects with ⟨b, hb, hcoherent', hclosed, hdrain⟩
      have hstep := Arrangement.Step.comma hclosed hdrain
      have hothers := ih hsecond (hstep.coherent hcoherent') rfl
      rw [List.intercalate_cons_cons, List.append_assoc, List.append_assoc]
      rw [Role.ofTokens_append_of_head (by simp), Arrangement.placeAll_append]
      rw [hb, Sequencing.ok_bind, List.singleton_append, Role.ofTokens_cons, Role.attach]
      rw [Arrangement.placeAll_cons, hstep.place hcoherent', Sequencing.ok_bind, hothers]
      simp [Nat.add_assoc, Nat.add_comm]

/-! ## Whole expressions -/

theorem arrange_group (h : ArrangesTo tokens program) :
    arrange (.openParen :: tokens ++ [.closeParen]) = .ok program := by
  rcases Sequencing.bind_eq_ok.mp h.arrange_eq with ⟨alone, hplace, hfinish⟩
  have hgroup := Arrangement.placeAll_group Arrangement.coherent_start
    (Role.proper_of_mem_ofTokens h.blank_not_mem) (Role.ofTokens_ne_nil h.ne_nil) hplace hfinish
  have hroles : Role.ofTokens (.openParen :: tokens ++ [.closeParen]) =
      .openGroup :: Role.ofTokens tokens ++ [.close] := by
    rw [List.cons_append, Role.ofTokens_cons, Role.ofTokens_append_of_head (by simp)]
    rfl
  rw [arrange, hroles, hgroup, Sequencing.ok_bind]
  apply Arrangement.finish_of_drain rfl
  exact congrArg (·, []) (List.append_nil program.reverse)

end ArrangesTo

theorem arrange_call {function : String} {words : List (List Token)} {programs : List Program}
    (hnone : Constant.named? function = none) (hne : words ≠ [])
    (h : List.Forall₂ ArrangesTo words programs) :
    arrange (.name function :: .openParen :: ([Token.comma].intercalate words ++ [.closeParen])) =
      .ok (programs.flatten ++ [.call function words.length]) := by
  cases h with
  | nil => exact absurd rfl hne
  | @cons tokens program words programs hfirst hrest =>
      have hopen : (Arrangement.mk [] [.call function 0] .opening).Coherent :=
        (Arrangement.Step.openCall .start function).coherent Arrangement.coherent_start
      have hcall := hfirst.placeAll_arguments hrest hopen rfl
      rw [arrange, Role.ofTokens_callee hnone, Arrangement.placeAll_cons]
      show Arrangement.placeAll ⟨[], [.call function 0], .opening⟩ _ >>= _ = _
      rw [hcall, Sequencing.ok_bind]
      apply Arrangement.finish_of_drain rfl
      simp [Pending.drain, Pending.release]

/-- Arranging goes part by part: groups and calls are arranged as what is inside them. -/
theorem arrange_parenthesized :
    (∀ tokens program, ArrangesTo tokens program →
      arrange ([.openParen] ++ tokens ++ [.closeParen]) = .ok program) ∧
    ∀ function words programs, Constant.named? function = none → words ≠ [] →
      List.Forall₂ ArrangesTo words programs →
      arrange ([.name function, .openParen] ++ [.comma].intercalate words ++ [.closeParen]) =
        .ok (programs.flatten ++ [.call function words.length]) := by
  constructor
  · intro tokens program h
    exact h.arrange_group
  · intro function words programs hnone hne h
    rw [List.append_assoc]
    exact arrange_call hnone hne h

theorem arrange_parenthesized_of_juxtaposition :
    ∃ words programs,
      [Token.comma].intercalate words = [.openParen, .closeParen, .comma, .number 2, .number 3,
        .comma, .operator '-', .name "x", .suffix '!'] ∧
      Constant.named? "max" = none ∧ words ≠ [] ∧ List.Forall₂ ArrangesTo words programs ∧
      arrange ([.name "max", .openParen] ++ [.comma].intercalate words ++ [.closeParen]) =
        .ok [.number 2, .number 3, .name "x", .operator .factorial, .operator .negate,
          .call "max" 3] := by
  have hempty : ArrangesTo [.openParen, .closeParen] [] :=
    ⟨by simp, by simp, rfl⟩
  have hnumbers : ArrangesTo [.number 2, .number 3] [.number 2, .number 3] :=
    ⟨by simp, by simp, rfl⟩
  have hnegation : ArrangesTo [.operator '-', .name "x", .suffix '!']
      [.name "x", .operator .factorial, .operator .negate] :=
    ⟨by simp, by simp, rfl⟩
  have hwords : List.Forall₂ ArrangesTo _ _ := .cons hempty (.cons hnumbers (.cons hnegation .nil))
  have hmax : Constant.named? "max" = none := by decide
  have hne := List.cons_ne_nil [Token.openParen, .closeParen]
    [[.number 2, .number 3], [.operator '-', .name "x", .suffix '!']]
  exact ⟨_, _, rfl, hmax, hne, hwords, arrange_parenthesized.2 "max" _ _ hmax hne hwords⟩

end Calculator
