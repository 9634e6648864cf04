import Calculator.Proofs.Contexts
import Calculator.Proofs.Surroundings

/-!
# An expression for the previous answer

An expression that uses the value of another one as the previous answer can as well
contain the other one, in parentheses.  The parentheses never open a call, because the
name of the previous answer stands neither behind another name nor before a
parenthesis in an expression that has a value.  So the program of the inner expression
takes the place of each instruction that reads the answer, and it puts the same value
on the stack.
-/

namespace Calculator

/-! ## Substitution in tokens, roles and programs -/

def Token.withAnswer (inner : List Token) (token : Token) : List Token :=
  if token = name "ans" then openParen :: inner ++ [closeParen] else [token]

def Role.withAnswer (inner : List Role) : Role → List Role
  | operand (.name text) =>
      if text = "ans" then openGroup :: inner ++ [close] else [operand (.name text)]
  | role => [role]

def Instruction.withAnswer (inner : Program) : Instruction → Program
  | name text => if text = "ans" then inner else [name text]
  | instruction => [instruction]

/-- An expression with another one wherever it has the previous answer. -/
def substituteAnswer (inner tokens : List Token) : List Token :=
  tokens.flatMap (Token.withAnswer inner)

theorem Instruction.withAnswer_of_ne {instruction : Instruction} (h : instruction ≠ .name "ans")
    (inner : Program) : instruction.withAnswer inner = [instruction] := by
  cases instruction with
  | name text =>
      have htext : text ≠ "ans" := fun heq => h (congrArg name heq)
      rw [withAnswer, if_neg htext]
  | number | operator | call => rfl

theorem Role.withAnswer_of_ne {role : Role} (h : role ≠ .operand (.name "ans"))
    (inner : List Role) : role.withAnswer inner = [role] := by
  unfold withAnswer
  split
  · rename_i text
    have htext : text ≠ "ans" := fun heq => h (congrArg (fun t => operand (.name t)) heq)
    rw [if_neg htext]
  · rfl

/-! ## The names of an expression with a value -/

namespace Mention

variable {environment : Environment} {name : String}

theorem Known.eq_ans (h : (reads name).Known environment) : name = "ans" := by
  rcases h with ⟨value, hlookup⟩
  rw [Environment.lookup?] at hlookup
  split at hlookup
  · assumption
  · cases hlookup

theorem Known.ne_ans (h : (calls name).Known environment) : name ≠ "ans" := by
  rcases h with ⟨function, hnamed⟩
  intro heq
  rw [heq] at hnamed
  cases hnamed

end Mention

namespace Role

theorem ofTokens_parenthesized (inner rest : List Token) :
    ofTokens (.openParen :: inner ++ [.closeParen] ++ rest) =
      .openGroup :: ofTokens inner ++ [.close] ++ ofTokens rest := by
  rw [List.append_assoc, List.cons_append, ofTokens_cons]
  rw [ofTokens_append_of_head (by simp), List.singleton_append, ofTokens_cons]
  rw [List.append_assoc]
  rfl

theorem alone_name_of_none {text : String} (h : Constant.named? text = none) :
    alone (.name text) = operand (.name text) := by
  rw [alone, h]

theorem eq_name_of_alone {token : Token} {text : String}
    (h : alone token = operand (.name text)) : token = .name text := by
  cases token with
  | name name =>
      rw [alone] at h
      split at h
      · cases h
      · cases h
        rfl
  | number | operator | suffix | openParen | closeParen | comma | blank => cases h

theorem ofTokens_substituteAnswer {environment : Environment} (inner : List Token)
    {tokens : List Token}
    (hknown : ∀ mention ∈ mentions (ofTokens tokens), mention.Known environment) :
    ofTokens (substituteAnswer inner tokens) =
      (ofTokens tokens).flatMap (withAnswer (ofTokens inner)) := by
  unfold substituteAnswer
  induction tokens using pieceInduction with
  | nil => rfl
  | single token rest hopens ih =>
      rw [ofTokens_single hopens] at hknown ⊢
      rw [forall_mem_mentions_cons] at hknown
      rw [List.flatMap_cons, List.flatMap_cons, ← ih hknown.2]
      by_cases htoken : token = .name "ans"
      · rw [Token.withAnswer, if_pos htoken, htoken]
        exact ofTokens_parenthesized inner _
      · have hrole : alone token ≠ .operand (.name "ans") := by
          intro hrole
          exact htoken (eq_name_of_alone hrole)
        -- any other name would be read, and nothing is known by it
        have hopens' (behind : List Token) : ¬ Token.OpensCall [token] behind := by
          intro hopens'
          rcases hopens' with ⟨text, hlast, hnone, _⟩
          cases hlast
          rw [alone_name_of_none hnone] at hknown
          have hans := (hknown.1 (.reads text) rfl).eq_ans
          exact htoken (congrArg Token.name hans)
        rw [Token.withAnswer, if_neg htoken, withAnswer_of_ne hrole]
        exact ofTokens_single (hopens' _)
  | callee text rest hnone ih =>
      rw [ofTokens_callee hnone] at hknown ⊢
      rw [forall_mem_mentions_cons] at hknown
      have htext : text ≠ "ans" := (hknown.1 (.calls text) rfl).ne_ans
      have htoken : Token.name text ≠ .name "ans" := fun heq => htext (Token.name.inj heq)
      rw [List.flatMap_cons, List.flatMap_cons, List.flatMap_cons, ← ih hknown.2]
      rw [Token.withAnswer, if_neg htoken]
      exact ofTokens_callee hnone _

end Role

/-! ## The program of a substituted expression -/

/-- Everywhere in a program, another one for the previous answer. -/
def Context.answer (inner : Program) : Context where
  image := Instruction.withAnswer inner
  before := []
  around := []
  image_operator := fun _ => rfl
  image_call := fun _ _ => rfl
  release_around := fun _ _ => rfl

section

variable {first : List Role} {inner : Program} {c : Arrangement}
  (hproper : ∀ role ∈ first, role.Proper) (hfirst : first ≠ [])
  (hplace : Arrangement.start.placeAll first = .ok c) (hfinish : c.finish = .ok inner)

include hproper hfirst hplace hfinish

/-- The tokens of the inner expression do in parentheses what the name of the answer does. -/
theorem Context.Surrounds.exists_placeAll_withAnswer {a a' b : Arrangement} {roles : List Role}
    (h : (Context.answer inner).Surrounds a a') (hcoherent : a.Coherent)
    (hcoherent' : a'.Coherent) (hroles : ∀ role ∈ roles, role.Proper)
    (hrun : a.placeAll roles = .ok b) :
    ∃ b', a'.placeAll (roles.flatMap (Role.withAnswer first)) = .ok b' ∧
      (Context.answer inner).Surrounds b b' := by
  induction roles generalizing a a' with
  | nil =>
      cases hrun
      exact ⟨a', rfl, h⟩
  | cons role roles ih =>
      rw [List.forall_mem_cons] at hroles
      rw [Arrangement.placeAll_cons] at hrun
      rcases Sequencing.bind_eq_ok.mp hrun with ⟨next, hnext, hrest⟩
      have hstep := Arrangement.step_of_place hcoherent hroles.1 hnext
      have hcoherent_next := hstep.coherent hcoherent
      rw [List.flatMap_cons, Arrangement.placeAll_append]
      by_cases hrole : role = .operand (.name "ans")
      · subst hrole
        cases hnext
        have hgroup := Arrangement.placeAll_group hcoherent' hproper hfirst hplace hfinish
        have hsurrounds : (Context.answer inner).Surrounds (a.addOperand (.name "ans"))
            ⟨inner.reverse ++ a'.output, a'.pending, .closing⟩ := by
          refine ⟨?_, h.pending, rfl, nofun⟩
          show inner.reverse ++ a'.output =
            (Context.answer inner).output (.name "ans" :: a.output)
          rw [h.output, Context.output_cons]
          rfl
        show ∃ b', (a'.placeAll (.openGroup :: first ++ [.close]) >>= _) = .ok b' ∧ _
        rw [hgroup]
        exact ih hsurrounds hcoherent_next ⟨trivial, hcoherent'.factorial_not_mem⟩ hroles.2 hrest
      · have himage : ∀ instruction, role = .operand instruction →
            (Context.answer inner).image instruction = [instruction] := by
          intro instruction heq
          apply Instruction.withAnswer_of_ne
          intro hname
          rw [hname] at heq
          exact hrole heq
        rcases h.exists_step hstep himage with ⟨next', hstep', hsurrounds⟩
        rw [Role.withAnswer_of_ne hrole, Arrangement.placeAll_cons, hstep'.place hcoherent']
        exact ih hsurrounds hcoherent_next (hstep'.coherent hcoherent') hroles.2 hrest

end

theorem arrange_substituteAnswer {environment : Environment} {first second : List Token}
    {inner program : Program} (hblank : .blank ∉ first) (hfirst : first ≠ [])
    (hinner : arrange first = .ok inner) (hblank' : .blank ∉ second) (hsecond : second ≠ [])
    (hprogram : arrange second = .ok program)
    (hknown : ∀ mention ∈ Role.mentions (Role.ofTokens second), mention.Known environment) :
    arrange (substituteAnswer first second) =
      .ok (program.flatMap (Instruction.withAnswer inner)) := by
  rcases Sequencing.bind_eq_ok.mp hinner with ⟨c, hplace, hfinish⟩
  rcases Sequencing.bind_eq_ok.mp hprogram with ⟨b, hrun, hend⟩
  have hproper := Role.proper_of_mem_ofTokens hblank
  have hproper' := Role.proper_of_mem_ofTokens hblank'
  have hstart : (Context.answer inner).Surrounds .start .start := ⟨rfl, rfl, rfl, id⟩
  rcases hstart.exists_placeAll_withAnswer hproper (Role.ofTokens_ne_nil hfirst) hplace hfinish
    Arrangement.coherent_start Arrangement.coherent_start hproper' hrun with
    ⟨b', hrun', hsurrounds⟩
  rcases Arrangement.previous_ne_start_of_placeAll Arrangement.coherent_start hproper'
    (Role.ofTokens_ne_nil hsecond) hrun with ⟨hcoherent, hprevious⟩
  rcases Arrangement.drain_of_finish hcoherent hprevious hend with ⟨hclosed, hdrain⟩
  have houtput : (Context.answer inner).output program.reverse =
      (program.flatMap (Instruction.withAnswer inner)).reverse := by
    rw [List.reverse_flatMap]
    exact List.append_nil _
  have hdrain' := hsurrounds.drain hdrain
  rw [houtput] at hdrain'
  rw [arrange, Role.ofTokens_substituteAnswer first hknown, hrun']
  exact Arrangement.finish_of_drain (hsurrounds.expects.trans hclosed) hdrain'

/-! ## The value of a substituted expression -/

theorem Mention.fixed_of_not_rand {program : Program} (hrand : .calls "rand" ∉ program.mentions)
    {environment other : Environment} (hanswer : other.answer = environment.answer) :
    ∀ mention ∈ program.mentions, mention.Fixed environment other := by
  intro mention hmem
  cases mention with
  | reads name =>
      show other.lookup? name = environment.lookup? name
      rw [Environment.lookup?, Environment.lookup?, hanswer]
  | calls name =>
      intro hname
      rw [hname] at hmem
      exact hrand hmem

theorem Program.evaluate_of_not_rand {program : Program} {environment other : Environment}
    {value : Float} (h : program.evaluate environment = .ok value)
    (hrand : .calls "rand" ∉ program.mentions) (hunit : other.unit = environment.unit)
    (hanswer : other.answer = environment.answer) : program.evaluate other = .ok value := by
  rw [evaluate_eq_ok] at h ⊢
  rcases h with ⟨⟨last, hrun, hstack⟩, hfinite⟩
  rcases Machine.exists_run_of_fixed hunit (List.append_nil _).symm
    (Mention.fixed_of_not_rand hrand hanswer) hrun with ⟨last', hrun', hlast⟩
  refine ⟨⟨last', hrun', ?_⟩, hfinite⟩
  rw [hlast, hstack]
  rfl

theorem Program.exists_run_of_evaluate {program : Program} {environment other : Environment}
    {value : Float} (h : program.evaluate environment = .ok value)
    (hrand : .calls "rand" ∉ program.mentions) (hunit : other.unit = environment.unit)
    (hanswer : other.answer = environment.answer) (machine : Machine) :
    ∃ last, machine.run other program = .ok last ∧ last.stack = value :: machine.stack := by
  rcases (evaluate_eq_ok.mp h).1 with ⟨last, hrun, hstack⟩
  have hbelow : machine.stack = Machine.start.stack ++ machine.stack := rfl
  rcases Machine.exists_run_of_fixed hunit hbelow (Mention.fixed_of_not_rand hrand hanswer) hrun
    with ⟨last', hrun', hlast⟩
  refine ⟨last', hrun', ?_⟩
  rw [hlast, hstack]
  rfl

theorem Machine.exists_run_withAnswer {inner program : Program} {environment other : Environment}
    {machine machine' last : Machine} (hunit : other.unit = environment.unit)
    (hinner : ∀ machine : Machine, ∃ last, machine.run other inner = .ok last ∧
      last.stack = environment.answer :: machine.stack)
    (hrand : .calls "rand" ∉ program.mentions) (hstack : machine'.stack = machine.stack)
    (h : machine.run environment program = .ok last) :
    ∃ last', machine'.run other (program.flatMap (Instruction.withAnswer inner)) = .ok last' ∧
      last'.stack = last.stack := by
  induction program generalizing machine machine' with
  | nil =>
      cases h
      exact ⟨machine', rfl, hstack⟩
  | cons instruction program ih =>
      rw [run_cons] at h
      rcases Sequencing.bind_eq_ok.mp h with ⟨next, hstep, hrun⟩
      rw [Program.mentions_cons, List.mem_append, Option.mem_toList, not_or] at hrand
      rw [List.flatMap_cons, run_append]
      by_cases hname : instruction = .name "ans"
      · subst hname
        cases hstep
        rcases hinner machine' with ⟨next', hrun', hnext⟩
        have hstack' : next'.stack = environment.answer :: machine.stack := by
          rw [hnext, hstack]
        show ∃ last', (machine'.run other inner >>= _) = .ok last' ∧ _
        rw [hrun']
        exact ih hrand.2 hstack' hrun
      · have hfixed : ∀ mention ∈ instruction.mention?, mention.Fixed environment other := by
          intro mention hmention
          cases instruction with
          | number | operator => cases hmention
          | name text =>
              cases hmention
              have htext : text ≠ "ans" := fun heq => hname (congrArg Instruction.name heq)
              show other.lookup? text = environment.lookup? text
              rw [Environment.lookup?, Environment.lookup?, if_neg htext, if_neg htext]
          | call function count =>
              cases hmention
              intro hfunction
              rw [hfunction] at hrand
              exact hrand.1 rfl
        have hstack' : machine'.stack = machine.stack ++ [] := by
          rw [hstack, List.append_nil]
        rcases exists_step_of_fixed hunit hstack' hfixed hstep with ⟨next', hstep', hnext⟩
        rw [List.append_nil] at hnext
        rw [Instruction.withAnswer_of_ne hname, run_cons, hstep']
        exact ih hrand.2 hnext hrun

theorem Program.evaluate_withAnswer {inner program : Program} {before after other : Environment}
    {result : Float} (hinner : inner.evaluate before = .ok after.answer)
    (hrand : .calls "rand" ∉ inner.mentions) (hprogram : program.evaluate after = .ok result)
    (hrand' : .calls "rand" ∉ program.mentions) (hafter : after.unit = before.unit)
    (hunit : other.unit = before.unit) (hanswer : other.answer = before.answer) :
    Program.evaluate other (program.flatMap (Instruction.withAnswer inner)) = .ok result := by
  rw [evaluate_eq_ok] at hprogram ⊢
  rcases hprogram with ⟨⟨last, hrun, hstack⟩, hfinite⟩
  have hputs := exists_run_of_evaluate hinner hrand hunit hanswer
  rcases Machine.exists_run_withAnswer (hunit.trans hafter.symm) hputs hrand' rfl hrun with
    ⟨last', hrun', hlast⟩
  exact ⟨⟨last', hrun', hlast.trans hstack⟩, hfinite⟩

end Calculator
