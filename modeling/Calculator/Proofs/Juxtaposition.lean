import Calculator.Pending
import Calculator.Proofs.TokenRoles
import Mathlib.Data.List.Chain

/-!
# Operands side by side and empty groups

No token stands for a multiplication, so in `2(3)` an operand ends where another one
begins.  Such pairs of tokens are counted here, and groups with nothing in them are
singled out.  Both are said of the tokens as they are typed and then carried over to
their roles, of which each tells by itself what comes before the next one.
-/

namespace Calculator

namespace Token

def endsOperand : Token → Bool
  | number _ | name _ | suffix _ | closeParen => true
  | operator _ | openParen | comma | blank => false

def startsOperand : Token → Bool
  | number _ | name _ | openParen => true
  | operator _ | suffix _ | closeParen | comma | blank => false

/-- Whether one operand ends where another begins; a name that is called ends none. -/
def juxtaposed : Token → Token → Bool
  | name text, openParen => (Constant.named? text).isSome
  | token, next => token.endsOperand && next.startsOperand

end Token

def juxtapositions (tokens : List Token) : Nat :=
  (tokens.zip tokens.tail).countP fun pair => pair.1.juxtaposed pair.2

/-- Whether a parenthesis that opens no call is closed at once. -/
def HasEmptyGroup (tokens : List Token) : Prop :=
  ∃ before after, tokens = before ++ .openParen :: .closeParen :: after ∧
    ¬ Token.OpensCall before (.openParen :: .closeParen :: after)

theorem juxtapositions_cons (token : Token) (rest : List Token) :
    juxtapositions (token :: rest) =
      (rest.head?.any token.juxtaposed).toNat + juxtapositions rest := by
  cases rest with
  | nil => rfl
  | cons next rest =>
      rw [juxtapositions, List.tail_cons, List.zip_cons_cons, List.countP_cons, Nat.add_comm]
      cases hjuxtaposed : token.juxtaposed next <;> simp [hjuxtaposed, juxtapositions]

/-! ## Roles side by side -/

def Previous.followedBy (previous : Previous) : Role → Previous
  | .operand _ => .operand
  | .openGroup | .openCall _ => .opening
  | .close => .closing
  | .comma => .comma
  | .operator _ => .operator
  | .suffix _ => .suffix
  | .blank => previous

namespace Role

def startsOperand : Role → Bool
  | operand _ | openGroup | openCall _ => true
  | close | comma | operator _ | suffix _ | blank => false

/-- The number of operands, at most one, that end directly before an operand with this role. -/
def joinedTo (previous : Previous) (role : Role) : Nat :=
  (!previous.expectsOperand && role.startsOperand).toNat

def juxtapositionsAfter (previous : Previous) : List Role → Nat
  | [] => 0
  | role :: roles =>
      role.joinedTo previous + juxtapositionsAfter (previous.followedBy role) roles

theorem startsOperand_alone (token : Token) :
    (alone token).startsOperand = token.startsOperand := by
  cases token with
  | name text =>
      rw [alone]
      split <;> rfl
  | number | operator | suffix | openParen | closeParen | comma | blank => rfl

theorem expectsOperand_followedBy_alone (previous : Previous) {token : Token}
    (hblank : token ≠ .blank) :
    (previous.followedBy (alone token)).expectsOperand = !token.endsOperand := by
  cases token with
  | name text =>
      rw [alone]
      split <;> rfl
  | blank => exact absurd rfl hblank
  | number | operator | suffix | openParen | closeParen | comma => rfl

theorem juxtaposed_of_not_opensCall {token next : Token} {rest : List Token}
    (h : ¬ Token.OpensCall [token] (next :: rest)) :
    token.juxtaposed next = (token.endsOperand && next.startsOperand) := by
  unfold Token.juxtaposed
  split
  · rename_i text
    cases hnamed : Constant.named? text with
    | none => exact absurd ⟨text, rfl, hnamed, rfl⟩ h
    | some constant => rfl
  · rfl

theorem juxtapositionsAfter_ofTokens (previous : Previous) {tokens : List Token}
    (hblank : .blank ∉ tokens) :
    juxtapositionsAfter previous (ofTokens tokens) =
      (!previous.expectsOperand && tokens.head?.any Token.startsOperand).toNat +
        juxtapositions tokens := by
  induction tokens using pieceInduction generalizing previous with
  | nil =>
      rw [ofTokens_nil]
      simp [juxtapositionsAfter, juxtapositions]
  | single token rest hopens ih =>
      rw [List.mem_cons, not_or] at hblank
      rw [ofTokens_single hopens, juxtapositionsAfter, ih _ hblank.2, juxtapositions_cons]
      rw [expectsOperand_followedBy_alone previous (Ne.symm hblank.1), joinedTo]
      rw [startsOperand_alone]
      cases rest with
      | nil => simp
      | cons next rest =>
          simp only [List.head?_cons, Option.any_some, Bool.not_not]
          rw [juxtaposed_of_not_opensCall hopens]
  | callee text rest hnone ih =>
      rw [List.mem_cons, List.mem_cons, not_or, not_or] at hblank
      rw [ofTokens_callee hnone, juxtapositionsAfter, ih _ hblank.2.2, juxtapositions_cons]
      rw [juxtapositions_cons]
      have hcallee : Token.juxtaposed (.name text) .openParen = false := by
        rw [Token.juxtaposed, hnone]
        rfl
      have hopening : rest.head?.any (Token.juxtaposed .openParen) = false := by
        cases rest <;> rfl
      simp [hcallee, hopening, joinedTo, startsOperand, Previous.followedBy,
        Previous.expectsOperand, Token.startsOperand]

theorem juxtapositionsAfter_start {tokens : List Token} (hblank : .blank ∉ tokens) :
    juxtapositionsAfter .start (ofTokens tokens) = juxtapositions tokens := by
  rw [juxtapositionsAfter_ofTokens .start hblank]
  simp [Previous.expectsOperand]

/-! ## Empty groups -/

def NoEmptyGroup (roles : List Role) : Prop :=
  roles.IsChain fun role next => role = openGroup → next ≠ close

theorem hasEmptyGroup_append {before tokens : List Token}
    (hopens : ¬ Token.OpensCall before tokens) (h : HasEmptyGroup tokens) :
    HasEmptyGroup (before ++ tokens) := by
  rcases h with ⟨inner, after, rfl, hgroup⟩
  refine ⟨before ++ inner, after, (List.append_assoc _ _ _).symm, ?_⟩
  cases inner with
  | nil => simpa using hopens
  | cons token inner =>
      intro hcall
      rcases hcall with ⟨text, hlast, hnone, hhead⟩
      rw [List.getLast?_append_of_ne_nil _ (List.cons_ne_nil token inner)] at hlast
      exact hgroup ⟨text, hlast, hnone, hhead⟩

theorem noEmptyGroup_ofTokens {tokens : List Token} (h : ¬ HasEmptyGroup tokens) :
    NoEmptyGroup (ofTokens tokens) := by
  induction tokens using pieceInduction with
  | nil => exact .nil
  | single token rest hopens ih =>
      have hrest : ¬ HasEmptyGroup rest := by
        intro hempty
        exact h (hasEmptyGroup_append hopens hempty)
      rw [ofTokens_single hopens, NoEmptyGroup, List.isChain_cons]
      constructor
      · intro next hnext hrole hclose
        have htoken : token = .openParen := by
          have hsingle := ofTokens_single (not_opensCall_before_nil [token])
          rw [hrole] at hsingle
          exact Option.some.inj (head?_of_ofTokens (Or.inl rfl) hsingle)
        rw [hclose] at hnext
        rcases List.head?_eq_some_iff.mp hnext with ⟨roles, hroles⟩
        rcases List.head?_eq_some_iff.mp (head?_of_ofTokens (Or.inr rfl) hroles) with ⟨after, rfl⟩
        rw [htoken] at h
        exact h ⟨[], after, rfl, not_opensCall_nil _⟩
      · exact ih hrest
  | callee text rest hnone ih =>
      have hrest : ¬ HasEmptyGroup rest := by
        intro hempty
        have hopens : ¬ Token.OpensCall [.name text, .openParen] rest := by
          intro hcall
          rcases hcall with ⟨_, hlast, _, _⟩
          cases hlast
        exact h (hasEmptyGroup_append hopens hempty)
      rw [ofTokens_callee hnone, NoEmptyGroup, List.isChain_cons]
      constructor
      · intro next hnext hrole
        cases hrole
      · exact ih hrest

theorem not_hasEmptyGroup {tokens : List Token} (h : NoEmptyGroup (ofTokens tokens)) :
    ¬ HasEmptyGroup tokens := by
  intro hempty
  rcases hempty with ⟨before, after, rfl, hgroup⟩
  rw [ofTokens_append hgroup, NoEmptyGroup, List.isChain_append] at h
  exact h.2.1.rel rfl rfl

end Role
end Calculator
