import Calculator.Proofs.Expression
import Calculator.Proofs.TokenRoles

/-!
# The grammar of expressions

The phrases of an expression are sorted by how tightly they hold together, from
sums to single operands.  `Derives` gives the productions, each with the tree of the
phrase: sums and products are grouped from the left and powers from the right, and a
negation stands between powers and suffixes.  The grammar knows nothing of
precedences or of pending operators.

The place of an operator in the grammar is a table of three levels, those of its
phrase and of its two operands.  With this table the three productions for operators
between operands are one.
-/

namespace Calculator

inductive Level where
  | sum
  | product
  | power
  | negation
  | suffix
  | primary
  deriving Repr, DecidableEq

/-- Each kind but the last includes the phrases of the next. -/
def Level.next? : Level → Option Level
  | sum => some product
  | product => some power
  | power => some negation
  | negation => some suffix
  | suffix => some primary
  | primary => none

/-- The phrases of each kind, and the tree of each phrase. -/
inductive Derives : Level → List Token → Expression → Prop where
  | tighter {level next : Level} {tokens : List Token} {x : Expression} :
      level.next? = some next → Derives next tokens x → Derives level tokens x
  | sum {op : Operator} {left right : List Token} {x y : Expression}
      (two : op.operandCount = 2) :
      op = .add ∨ op = .subtract →
      Derives .sum left x → Derives .product right y →
      Derives .sum (left ++ .operator op.symbol :: right) (.binary op two x y)
  | product {op : Operator} {left right : List Token} {x y : Expression}
      (two : op.operandCount = 2) :
      op = .multiply ∨ op = .divide ∨ op = .remainder →
      Derives .product left x → Derives .power right y →
      Derives .product (left ++ .operator op.symbol :: right) (.binary op two x y)
  | power {left right : List Token} {x y : Expression} :
      Derives .negation left x → Derives .power right y →
      Derives .power (left ++ .operator '^' :: right) (.binary .power rfl x y)
  | negation {tokens : List Token} {x : Expression} :
      Derives .negation tokens x →
      Derives .negation (.operator '-' :: tokens) (.unary .negate rfl x)
  | suffix {tokens : List Token} {x : Expression} :
      Derives .suffix tokens x →
      Derives .suffix (tokens ++ [.suffix '!']) (.unary .factorial rfl x)
  | number (value : Float) : Derives .primary [.number value] (.number value)
  | constant {text : String} {constant : Constant} :
      Constant.named? text = some constant →
      Derives .primary [.name text] (.number constant.value)
  | name {text : String} :
      Constant.named? text = none → Derives .primary [.name text] (.name text)
  | call {function : String} {arguments : List (List Token × Expression)} :
      Constant.named? function = none →
      (∀ argument ∈ arguments, Derives .sum argument.1 argument.2) →
      Derives .primary
        (.name function :: .openParen ::
          ([Token.comma].intercalate (arguments.map Prod.fst) ++ [.closeParen]))
        (.call function (arguments.map Prod.snd))
  | group {tokens : List Token} {x : Expression} :
      Derives .sum tokens x → Derives .primary (.openParen :: (tokens ++ [.closeParen])) x

def IsSentence (tokens : List Token) : Prop :=
  ∃ x, Derives .sum tokens x

/-! ## Levels in order -/

/-- The rank of a kind of phrases, which is higher for tighter ones. -/
def Level.rank : Level → Nat
  | sum => 2
  | product => 3
  | power => 4
  | negation => 5
  | suffix => 6
  | primary => 7

theorem Level.rank_next {level next : Level} (h : level.next? = some next) :
    next.rank = level.rank + 1 := by
  cases level <;> cases h <;> rfl

theorem Level.eq_of_rank_eq {level other : Level} (h : level.rank = other.rank) :
    level = other := by
  cases level <;> cases other <;> first
    | rfl
    | cases h

theorem Level.exists_next_of_rank_lt {level tighter : Level} (h : level.rank < tighter.rank) :
    ∃ next, level.next? = some next := by
  cases level with
  | primary =>
      cases tighter <;> exact absurd h (by decide)
  | sum | product | power | negation | suffix => exact ⟨_, rfl⟩

theorem Level.sum_rank_le (level : Level) : Level.sum.rank ≤ level.rank := by
  cases level <;> decide

theorem Derives.of_rank_le {level looser : Level} {tokens : List Token} {x : Expression}
    (h : Derives level tokens x) (hrank : looser.rank ≤ level.rank) :
    Derives looser tokens x := by
  obtain ⟨gap, hgap⟩ := Nat.exists_eq_add_of_le hrank
  clear hrank
  induction gap generalizing looser with
  | zero =>
      rw [Level.eq_of_rank_eq hgap.symm]
      exact h
  | succ gap ih =>
      have hlt : looser.rank < level.rank := by omega
      rcases Level.exists_next_of_rank_lt hlt with ⟨next, hnext⟩
      have hstep := Level.rank_next hnext
      exact .tighter hnext (ih (by omega))

/-! ## The place of an operator in the grammar -/

namespace Operator

def level : Operator → Level
  | add | subtract => .sum
  | multiply | divide | remainder => .product
  | power => .power
  | negate => .negation
  | factorial => .suffix

def leftLevel : Operator → Level
  | add | subtract => .sum
  | multiply | divide | remainder => .product
  | power => .negation
  | negate => .primary
  | factorial => .suffix

def rightLevel : Operator → Level
  | add | subtract => .product
  | multiply | divide | remainder => .power
  | power => .power
  | negate => .negation
  | factorial => .primary

theorem rank_level_le_left (op : Operator) : op.level.rank ≤ op.leftLevel.rank := by
  cases op <;> decide

theorem rank_level_le_right (op : Operator) : op.level.rank ≤ op.rightLevel.rank := by
  cases op <;> decide

theorem rank_leftLevel_le_suffix {op : Operator} (two : op.operandCount = 2) :
    op.leftLevel.rank ≤ Level.suffix.rank := by
  cases op <;> first
    | decide
    | exact absurd two (by decide)

/-- An operator yields to those whose phrases may be its left operand. -/
theorem yieldsTo_iff {op waiting : Operator} (two : op.operandCount = 2) :
    op.yieldsTo waiting = true ↔ op.leftLevel.rank ≤ waiting.level.rank := by
  cases op <;> cases waiting <;> first
    | decide
    | exact absurd two (by decide)

/-- An operator stops at those whose right operand its phrase may be. -/
theorem not_yieldsTo_iff {op waiting : Operator} :
    op.yieldsTo waiting = false ↔ waiting.rightLevel.rank ≤ op.level.rank := by
  cases op <;> cases waiting <;> decide

end Operator

theorem Derives.binary {op : Operator} (two : op.operandCount = 2)
    {left right : List Token} {x y : Expression}
    (hleft : Derives op.leftLevel left x) (hright : Derives op.rightLevel right y) :
    Derives op.level (left ++ .operator op.symbol :: right) (.binary op two x y) := by
  cases op with
  | add => exact .sum two (Or.inl rfl) hleft hright
  | subtract => exact .sum two (Or.inr rfl) hleft hright
  | multiply => exact .product two (Or.inl rfl) hleft hright
  | divide => exact .product two (Or.inr (Or.inl rfl)) hleft hright
  | remainder => exact .product two (Or.inr (Or.inr rfl)) hleft hright
  | power => exact .power hleft hright
  | negate => cases two
  | factorial => cases two

end Calculator
