import Calculator.Proofs.Grammar
import Calculator.Proofs.Placement

/-!
# Arranging a phrase

The tokens of a phrase are arranged into the program of its tree.  The difficulty is
that operators of the phrase may still be waiting when its last token has been read,
and that others were waiting before its first one.  So the statement that is carried
through the grammar tells the two apart: what waits at the end is what waited
before, below operators at least as tight as the phrase, and when these are
released the output has grown by the program of the tree.

Two facts about levels make this work.  An operator yields to everything that waits in
its left operand, and a phrase at the level of a right operand never releases the
operator in front of it.
-/

namespace Calculator

/-! ## Operators that wait, and operators that yield -/

/-- Whether no operator of a phrase of this kind releases what waits on top. -/
def Pending.Holds (level : Level) (pending : List Pending) : Prop :=
  ∀ op : Operator, level.rank ≤ op.level.rank → ∀ output,
    release op.yieldsTo output pending = (output, pending)

namespace Pending

theorem holds_nil (level : Level) : Holds level [] := by
  intro op _ output
  rfl

theorem holds_group (level : Level) (pending : List Pending) : Holds level (.group :: pending) := by
  intro op _ output
  rfl

theorem holds_call (level : Level) (function : String) (commas : Nat) (pending : List Pending) :
    Holds level (.call function commas :: pending) := by
  intro op _ output
  rfl

theorem Holds.of_rank_le {level tighter : Level} {pending : List Pending}
    (h : Holds level pending) (hrank : level.rank ≤ tighter.rank) : Holds tighter pending := by
  intro op hop
  exact h op (Nat.le_trans hrank hop)

theorem holds_operator (op : Operator) (pending : List Pending) :
    Holds op.rightLevel (.operator op :: pending) := by
  intro incoming hrank output
  have hyields : incoming.yieldsTo op = false := Operator.not_yieldsTo_iff.mpr hrank
  rw [release, hyields]
  rfl

theorem release_append_of_forall {p : Operator → Bool} {waiting : List Operator}
    {pending : List Pending} (hwaiting : ∀ op ∈ waiting, p op = true)
    (hpending : ∀ output, release p output pending = (output, pending))
    (output : List Instruction) :
    release p output (waiting.map .operator ++ pending) =
      (waiting.reverse.map .operator ++ output, pending) := by
  induction waiting generalizing output with
  | nil => exact hpending output
  | cons op waiting ih =>
      have hrest := fun next hmem => hwaiting next (List.mem_cons_of_mem op hmem)
      rw [List.map_cons, List.cons_append, release, if_pos (hwaiting op List.mem_cons_self)]
      rw [ih hrest]
      simp

end Pending

namespace Arrangement

/-! ## What a phrase leaves behind -/

/-- One arrangement comes from another by a phrase with a program, of which operators still wait. -/
structure Extends (a b : Arrangement) (level : Level) (program : Program) : Prop where
  closed : b.previous.expectsOperand = false
  waiting : ∃ waiting : List Operator,
    b.pending = waiting.map .operator ++ a.pending ∧
    (∀ op ∈ waiting, level.rank ≤ op.level.rank ∧ op ≠ .factorial) ∧
    waiting.reverse.map .operator ++ b.output = program.reverse ++ a.output

namespace Extends

variable {a b : Arrangement} {level : Level} {program : Program}

theorem release (h : Extends a b level program) {p : Operator → Bool}
    (hyields : ∀ op : Operator, level.rank ≤ op.level.rank → p op = true)
    (hstays : ∀ output, Pending.release p output a.pending = (output, a.pending)) :
    Pending.release p b.output b.pending = (program.reverse ++ a.output, a.pending) := by
  rcases h.waiting with ⟨waiting, hpending, hwaiting, houtput⟩
  have hall : ∀ op ∈ waiting, p op = true := by
    intro op hmem
    exact hyields op (hwaiting op hmem).1
  rw [hpending, Pending.release_append_of_forall hall hstays, houtput]

theorem drain (h : Extends a b level program)
    (hstays : ∀ output, Pending.drain output a.pending = (output, a.pending)) :
    Pending.drain b.output b.pending = (program.reverse ++ a.output, a.pending) :=
  h.release (fun _ _ => rfl) hstays

theorem of_rank_le {looser : Level} (h : Extends a b level program)
    (hrank : looser.rank ≤ level.rank) : Extends a b looser program := by
  rcases h with ⟨hclosed, waiting, hpending, hwaiting, houtput⟩
  refine ⟨hclosed, waiting, hpending, ?_, houtput⟩
  intro op hmem
  exact ⟨Nat.le_trans hrank (hwaiting op hmem).1, (hwaiting op hmem).2⟩

theorem under_operator {op : Operator} {before : Program} (hop : op ≠ .factorial)
    (h : Extends ⟨before.reverse ++ a.output, .operator op :: a.pending, .operator⟩ b
      op.rightLevel program) :
    Extends a b op.level (before ++ program ++ [.operator op]) := by
  rcases h with ⟨hclosed, waiting, hpending, hwaiting, houtput⟩
  refine ⟨hclosed, waiting ++ [op], ?_, ?_, ?_⟩
  · rw [hpending]
    simp
  · intro next hmem
    rcases List.mem_append.mp hmem with hmem | hmem
    · exact ⟨Nat.le_trans op.rank_level_le_right (hwaiting next hmem).1, (hwaiting next hmem).2⟩
    · rw [List.mem_singleton] at hmem
      rw [hmem]
      exact ⟨Nat.le_refl _, hop⟩
  · rw [List.reverse_append, List.map_append, List.append_assoc, houtput]
    simp

end Extends

/-! ## Single tokens around a phrase -/

theorem place_operator_of_extends {a b : Arrangement} {op : Operator} {program : Program}
    (two : op.operandCount = 2) (h : Extends a b op.leftLevel program)
    (hholds : Pending.Holds op.level a.pending) :
    b.place (.operator op.symbol) =
      .ok ⟨program.reverse ++ a.output, .operator op :: a.pending, .operator⟩ := by
  have hrelease := h.release (p := op.yieldsTo)
    (fun _ => (Operator.yieldsTo_iff two).mpr)
    (hholds op (Nat.le_refl _))
  rw [place, placeOperator, Operator.between?_symbol two]
  simp only [h.closed, Bool.not_false, if_true, addOperator, hrelease]

theorem place_negation {a : Arrangement} (hexpects : a.previous.expectsOperand = true)
    (hholds : Pending.Holds .negation a.pending) :
    a.place (.operator '-') = .ok ⟨a.output, .operator .negate :: a.pending, .operator⟩ := by
  have hrelease := hholds .negate (by decide) a.output
  rw [place, placeOperator]
  simp only [Operator.between?, hexpects, Bool.not_true, addOperator, hrelease]
  rfl

theorem place_suffix_of_extends {a b : Arrangement} {program : Program}
    (h : Extends a b .suffix program) :
    ∃ c, b.place (.suffix '!') = .ok c ∧
      Extends a c .suffix (program ++ [.operator .factorial]) := by
  rcases h with ⟨hclosed, waiting, hpending, hwaiting, houtput⟩
  have hnil : waiting = [] := by
    cases waiting with
    | nil => rfl
    | cons op waiting =>
        rcases hwaiting op List.mem_cons_self with ⟨hrank, hop⟩
        cases op <;> first
          | exact absurd rfl hop
          | exact absurd hrank (by decide)
  subst hnil
  refine ⟨⟨.operator .factorial :: b.output, b.pending, .suffix⟩, ?_, rfl, [], hpending, ?_, ?_⟩
  · rw [place, placeSuffix]
    simp only [Operator.behind?, hclosed]
    rfl
  · intro op hmem
    cases hmem
  · simpa using houtput

theorem place_comma_of_extends {output : List Instruction} {function : String} {commas : Nat}
    {pending : List Pending} {previous : Previous} {b : Arrangement} {level : Level}
    {program : Program}
    (h : Extends ⟨output, .call function commas :: pending, previous⟩ b level program) :
    b.place .comma =
      .ok ⟨program.reverse ++ output, .call function (commas + 1) :: pending, .comma⟩ := by
  have hdrain := h.drain (fun _ => rfl)
  have hclosed := h.closed
  rw [place, placeComma, dangling?_of_not_expectsOperand hclosed, hdrain]
  cases hprevious : b.previous with
  | operand | suffix | closing => rfl
  | start | operator | opening | comma =>
      simp [hprevious, Previous.expectsOperand] at hclosed

theorem place_close_of_extends_group {output : List Instruction} {pending : List Pending}
    {previous : Previous} {b : Arrangement} {level : Level} {program : Program}
    (h : Extends ⟨output, .group :: pending, previous⟩ b level program) :
    b.place .close = .ok ⟨program.reverse ++ output, pending, .closing⟩ := by
  have hdrain := h.drain (fun _ => rfl)
  rw [place, placeClose, dangling?_of_not_expectsOperand h.closed, hdrain]

theorem place_close_of_extends_call {output : List Instruction} {function : String} {commas : Nat}
    {pending : List Pending} {previous : Previous} {b : Arrangement} {level : Level}
    {program : Program}
    (h : Extends ⟨output, .call function commas :: pending, previous⟩ b level program) :
    b.place .close =
      .ok ⟨.call function (commas + 1) :: (program.reverse ++ output), pending, .closing⟩ := by
  have hdrain := h.drain (fun _ => rfl)
  have hclosed := h.closed
  rw [place, placeClose, dangling?_of_not_expectsOperand hclosed, hdrain]
  cases hprevious : b.previous with
  | operand | suffix | closing => rfl
  | start | operator | opening | comma =>
      simp [hprevious, Previous.expectsOperand] at hclosed

end Arrangement

/-! ## One statement for each production -/

open Arrangement (Extends)

/-- Where an operand is expected, the tokens of the phrase extend the arrangement by its program. -/
def Arranges (level : Level) (tokens : List Token) (x : Expression) : Prop :=
  ∀ a : Arrangement, a.previous.expectsOperand = true → Pending.Holds level a.pending →
    ∃ b, a.placeAll (Role.ofTokens tokens) = .ok b ∧ Extends a b level x.program

namespace Arranges

theorem tighter {level next : Level} {tokens : List Token} {x : Expression}
    (hnext : level.next? = some next) (h : Arranges next tokens x) : Arranges level tokens x := by
  intro a hexpects hholds
  have hrank : level.rank ≤ next.rank := by
    rw [Level.rank_next hnext]
    exact Nat.le_succ _
  rcases h a hexpects (hholds.of_rank_le hrank) with ⟨b, hb, hextends⟩
  exact ⟨b, hb, hextends.of_rank_le hrank⟩

theorem binary {op : Operator} (two : op.operandCount = 2) {left right : List Token}
    {x y : Expression} (hleft : Arranges op.leftLevel left x)
    (hright : Arranges op.rightLevel right y) :
    Arranges op.level (left ++ .operator op.symbol :: right) (.binary op two x y) := by
  intro a hexpects hholds
  have hop : op ≠ .factorial := by
    intro hop
    rw [hop] at two
    cases two
  rcases hleft a hexpects (hholds.of_rank_le op.rank_level_le_left) with ⟨b, hb, hextends⟩
  have hplace := Arrangement.place_operator_of_extends two hextends hholds
  rcases hright ⟨x.program.reverse ++ a.output, .operator op :: a.pending, .operator⟩ rfl
    (Pending.holds_operator op a.pending) with ⟨c, hc, hextends'⟩
  refine ⟨c, ?_, hextends'.under_operator hop⟩
  rw [Role.ofTokens_append_of_head (by simp), Arrangement.placeAll_append, hb]
  rw [Sequencing.ok_bind, Role.ofTokens_cons, Role.attach, Arrangement.placeAll_cons, hplace]
  exact hc

theorem negation {tokens : List Token} {x : Expression} (h : Arranges .negation tokens x) :
    Arranges .negation (.operator '-' :: tokens) (.unary .negate rfl x) := by
  intro a hexpects hholds
  have hplace := Arrangement.place_negation hexpects hholds
  rcases h ⟨a.output, .operator .negate :: a.pending, .operator⟩ rfl
    (Pending.holds_operator .negate a.pending) with ⟨b, hb, hextends⟩
  refine ⟨b, ?_, @Extends.under_operator a b x.program .negate [] (by decide) hextends⟩
  rw [Role.ofTokens_cons, Role.attach, Arrangement.placeAll_cons, hplace]
  exact hb

theorem suffix {tokens : List Token} {x : Expression} (h : Arranges .suffix tokens x) :
    Arranges .suffix (tokens ++ [.suffix '!']) (.unary .factorial rfl x) := by
  intro a hexpects hholds
  rcases h a hexpects hholds with ⟨b, hb, hextends⟩
  rcases Arrangement.place_suffix_of_extends hextends with ⟨c, hplace, hc⟩
  refine ⟨c, ?_, hc⟩
  rw [Role.ofTokens_append_of_head (by simp), Role.ofTokens_cons, Role.attach, Role.ofTokens_nil]
  rw [Arrangement.placeAll_concat, hb]
  exact hplace

theorem operand {token : Token} {instruction : Instruction} {x : Expression}
    (hrole : Role.ofTokens [token] = [.operand instruction])
    (hprogram : x.program = [instruction]) : Arranges .primary [token] x := by
  intro a _ _
  refine ⟨a.addOperand instruction, ?_, rfl, [], rfl, ?_, ?_⟩
  · rw [hrole]
    rfl
  · intro op hmem
    cases hmem
  · rw [hprogram]
    rfl

theorem number (value : Float) : Arranges .primary [.number value] (.number value) :=
  operand rfl rfl

theorem constant {text : String} {constant : Constant}
    (h : Constant.named? text = some constant) :
    Arranges .primary [.name text] (.number constant.value) := by
  apply operand _ rfl
  simp [Role.ofTokens, Role.attach, Role.attachName, h]

theorem name {text : String} (h : Constant.named? text = none) :
    Arranges .primary [.name text] (.name text) := by
  apply operand _ rfl
  simp [Role.ofTokens, Role.attach, Role.attachName, h]

theorem bracketed {a : Arrangement} {program : Program} (output : List Instruction)
    (houtput : output = program.reverse ++ a.output) :
    Extends a ⟨output, a.pending, .closing⟩ .primary program := by
  refine ⟨rfl, [], rfl, ?_, houtput⟩
  intro op hmem
  cases hmem

theorem group {tokens : List Token} {x : Expression} (h : Arranges .sum tokens x) :
    Arranges .primary (.openParen :: (tokens ++ [.closeParen])) x := by
  intro a _ _
  rcases h (a.addOpening .group) rfl (Pending.holds_group _ _) with ⟨b, hb, hextends⟩
  have hplace := Arrangement.place_close_of_extends_group hextends
  refine ⟨_, ?_, bracketed _ rfl⟩
  rw [Role.ofTokens_cons, Role.attach, Role.ofTokens_append_of_head (by simp), Role.ofTokens_cons]
  rw [Role.attach, Role.ofTokens_nil, Arrangement.placeAll_cons]
  show (a.addOpening .group).placeAll _ = _
  rw [Arrangement.placeAll_concat, hb]
  exact hplace

theorem arguments {first : List Token × Expression} {rest : List (List Token × Expression)}
    (h : ∀ argument ∈ first :: rest, Arranges .sum argument.1 argument.2)
    (function : String) (commas : Nat) (output : List Instruction) (pending : List Pending)
    {previous : Previous} (hexpects : previous.expectsOperand = true) :
    Arrangement.placeAll ⟨output, .call function commas :: pending, previous⟩
        (Role.ofTokens ([Token.comma].intercalate ((first :: rest).map Prod.fst) ++
          [.closeParen])) =
      .ok ⟨.call function (commas + (first :: rest).length) ::
        (((first :: rest).map Prod.snd).flatMap Expression.program).reverse ++ output,
        pending, .closing⟩ := by
  induction rest generalizing first commas output previous with
  | nil =>
      rcases h first List.mem_cons_self ⟨output, .call function commas :: pending, previous⟩
        hexpects (Pending.holds_call _ _ _ _) with ⟨b, hb, hextends⟩
      have hplace := Arrangement.place_close_of_extends_call hextends
      rw [List.map_singleton, List.intercalate_singleton, Role.ofTokens_append_of_head (by simp)]
      rw [Role.ofTokens_cons, Role.attach, Role.ofTokens_nil, Arrangement.placeAll_concat, hb]
      rw [Sequencing.ok_bind, hplace]
      simp
  | cons second rest ih =>
      rcases h first List.mem_cons_self ⟨output, .call function commas :: pending, previous⟩
        hexpects (Pending.holds_call _ _ _ _) with ⟨b, hb, hextends⟩
      have hplace := Arrangement.place_comma_of_extends hextends
      have hcomma : Previous.comma.expectsOperand = true := rfl
      have hrest := ih (fun argument hmem => h argument (List.mem_cons_of_mem first hmem))
        (commas + 1) (first.2.program.reverse ++ output) hcomma
      rw [List.map_cons, List.map_cons, List.intercalate_cons_cons, List.append_assoc]
      rw [List.append_assoc, Role.ofTokens_append_of_head (by simp), Arrangement.placeAll_append]
      rw [hb, Sequencing.ok_bind, List.singleton_append, Role.ofTokens_cons, Role.attach]
      rw [Arrangement.placeAll_cons, hplace, Sequencing.ok_bind, ← List.map_cons, hrest]
      simp [Nat.add_assoc, Nat.add_comm]

theorem call {function : String} {arguments : List (List Token × Expression)}
    (hnone : Constant.named? function = none)
    (h : ∀ argument ∈ arguments, Arranges .sum argument.1 argument.2) :
    Arranges .primary
      (.name function :: .openParen ::
        ([Token.comma].intercalate (arguments.map Prod.fst) ++ [.closeParen]))
      (.call function (arguments.map Prod.snd)) := by
  intro a _ _
  refine ⟨⟨(Expression.call function (arguments.map Prod.snd)).program.reverse ++ a.output,
    a.pending, .closing⟩, ?_, bracketed _ rfl⟩
  rw [Role.ofTokens_callee hnone, Arrangement.placeAll_cons]
  show (a.addOpening (.call function 0)).placeAll _ = _
  rw [Expression.program_call]
  cases arguments with
  | nil => rfl
  | cons first rest =>
      rw [Arrangement.addOpening, Arranges.arguments h function 0 a.output a.pending rfl]
      simp

end Arranges

theorem Derives.arranges {level : Level} {tokens : List Token} {x : Expression}
    (h : Derives level tokens x) : Arranges level tokens x := by
  induction h with
  | tighter hnext _ ih => exact .tighter hnext ih
  | sum two hop _ _ ihLeft ihRight =>
      rcases hop with rfl | rfl
      · exact .binary two ihLeft ihRight
      · exact .binary two ihLeft ihRight
  | product two hop _ _ ihLeft ihRight =>
      rcases hop with rfl | rfl | rfl
      · exact .binary two ihLeft ihRight
      · exact .binary two ihLeft ihRight
      · exact .binary two ihLeft ihRight
  | power _ _ ihLeft ihRight => exact @Arranges.binary .power rfl _ _ _ _ ihLeft ihRight
  | negation _ ih => exact ih.negation
  | suffix _ ih => exact ih.suffix
  | number value => exact .number value
  | constant hconstant => exact .constant hconstant
  | name hnone => exact .name hnone
  | call hnone _ ih => exact .call hnone ih
  | group _ ih => exact ih.group

theorem arrange_of_derives {tokens : List Token} {x : Expression}
    (h : Derives .sum tokens x) : arrange tokens = .ok x.program := by
  rcases h.arranges .start rfl (Pending.holds_nil _) with ⟨a, ha, hextends⟩
  have hdrain := hextends.drain (fun _ => rfl)
  rw [arrange, ha, Sequencing.ok_bind, Arrangement.finish]
  rw [Arrangement.dangling?_of_not_expectsOperand hextends.closed, hdrain]
  simp [Arrangement.start]

theorem arrange_negated_factorial :
    ∃ tokens x,
      tokens = [.operator '-', .name "max", .openParen, .number 2, .operator '^', .name "x",
        .comma, .openParen, .number 3, .operator '-', .name "e", .closeParen, .closeParen,
        .suffix '!'] ∧
      Derives .sum tokens x ∧ arrange tokens = .ok x.program ∧
      x.program = [.number 2, .name "x", .operator .power, .number 3, .number Constant.e.value,
        .operator .subtract, .call "max" 2, .operator .factorial, .operator .negate] := by
  have hnumber : ∀ level value, Derives level [.number value] (.number value) := by
    intro level value
    exact (Derives.number value).of_rank_le (by cases level <;> decide)
  have hx : Derives .power [.name "x"] (.name "x") :=
    (Derives.name (by decide)).of_rank_le (by decide)
  have he : Derives .product [.name "e"] (.number Constant.e.value) :=
    (Derives.constant (by decide)).of_rank_le (by decide)
  have hpower : Derives .sum [.number 2, .operator '^', .name "x"]
      (.binary .power rfl (.number 2) (.name "x")) :=
    (Derives.power (hnumber _ 2) hx).of_rank_le (by decide)
  have hgroup : Derives .sum [.openParen, .number 3, .operator '-', .name "e", .closeParen]
      (.binary .subtract rfl (.number 3) (.number Constant.e.value)) :=
    (Derives.group (Derives.sum rfl (Or.inr rfl) (hnumber _ 3) he)).of_rank_le (by decide)
  have harguments : ∀ argument ∈
      [([.number 2, .operator '^', .name "x"],
          Expression.binary .power rfl (.number 2) (.name "x")),
        ([.openParen, .number 3, .operator '-', .name "e", .closeParen],
          Expression.binary .subtract rfl (.number 3) (.number Constant.e.value))],
      Derives .sum argument.1 argument.2 := by
    simp [hpower, hgroup]
  have hmax : Constant.named? "max" = none := by decide
  have hcall : Derives .suffix _ _ :=
    (Derives.call hmax harguments).of_rank_le (by decide)
  have hfactorial : Derives .negation _ _ := hcall.suffix.of_rank_le (by decide)
  have hsum : Derives .sum _ _ := hfactorial.negation.of_rank_le (by decide)
  exact ⟨_, _, rfl, hsum, arrange_of_derives hsum, rfl⟩

end Calculator
