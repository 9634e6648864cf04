import Calculator.Role
import Mathlib.Data.List.Forall2

/-!
# Tokens and their roles

The role of a token depends on the token behind it only where a name opens a call.
So roles are computed piece by piece: a list of tokens is a sequence of single
tokens and of names with the parenthesis that opens their call, and the roles of two
lists can be computed apart unless a call is opened exactly between them.
-/

namespace Calculator

/-- Whether a call is opened where one list of tokens ends and another begins. -/
def Token.OpensCall (before after : List Token) : Prop :=
  ∃ text, before.getLast? = some (.name text) ∧ Constant.named? text = none ∧
    after.head? = some .openParen

namespace Role

open Token (OpensCall)

/-! ## Pieces -/

def alone : Token → Role
  | .number value => operand (.number value)
  | .operator symbol => operator symbol
  | .suffix symbol => suffix symbol
  | .openParen => openGroup
  | .closeParen => close
  | .comma => comma
  | .name text =>
      match Constant.named? text with
      | some constant => operand (.number constant.value)
      | none => operand (.name text)
  | .blank => blank

theorem ofTokens_callee {text : String} (h : Constant.named? text = none) (rest : List Token) :
    ofTokens (.name text :: .openParen :: rest) = openCall text :: ofTokens rest := by
  rw [ofTokens_cons, ofTokens_cons]
  simp [attach, attachName, h]

theorem head?_of_ofTokens {bracket : Token} {tokens : List Token} {roles : List Role}
    (hbracket : bracket = .openParen ∨ bracket = .closeParen)
    (h : ofTokens tokens = alone bracket :: roles) : tokens.head? = some bracket := by
  cases tokens with
  | nil => cases h
  | cons token rest =>
      rw [ofTokens_cons] at h
      cases token with
      | name text =>
          simp only [attach, attachName] at h
          rcases hbracket with rfl | rfl <;> split at h <;> cases h
      | number | operator | suffix | openParen | closeParen | comma | blank =>
          rcases hbracket with rfl | rfl <;> first
            | rfl
            | cases h

theorem ofTokens_single {token : Token} {rest : List Token} (h : ¬ OpensCall [token] rest) :
    ofTokens (token :: rest) = alone token :: ofTokens rest := by
  rw [ofTokens_cons]
  cases token with
  | name text =>
      cases hnamed : Constant.named? text with
      | some constant => simp only [attach, attachName, alone, hnamed]
      | none =>
          cases hroles : ofTokens rest with
          | nil => simp only [attach, attachName, alone, hnamed]
          | cons role roles =>
              cases role with
              | openGroup =>
                  have hhead := head?_of_ofTokens (Or.inl rfl) hroles
                  exact absurd ⟨text, rfl, hnamed, hhead⟩ h
              | operand | openCall | close | comma | operator | suffix | blank =>
                  simp only [attach, attachName, alone, hnamed]
  | number value => rfl
  | operator symbol => rfl
  | suffix symbol => rfl
  | openParen => rfl
  | closeParen => rfl
  | comma => rfl
  | blank => rfl

theorem not_opensCall_nil (after : List Token) : ¬ OpensCall [] after := by
  intro h
  rcases h with ⟨_, hlast, _⟩
  cases hlast

theorem not_opensCall_before_nil (before : List Token) : ¬ OpensCall before [] := by
  intro h
  rcases h with ⟨_, _, _, hhead⟩
  cases hhead

theorem not_opensCall_of_head {before after : List Token} (h : after.head? ≠ some .openParen) :
    ¬ OpensCall before after := by
  intro hopens
  rcases hopens with ⟨_, _, _, hhead⟩
  exact h hhead

/-- Induction over the pieces: single tokens, and names with the parenthesis they are called by. -/
@[elab_as_elim]
theorem pieceInduction {motive : List Token → Prop} (nil : motive [])
    (single : ∀ token rest, ¬ OpensCall [token] rest → motive rest → motive (token :: rest))
    (callee : ∀ text rest, Constant.named? text = none → motive rest →
      motive (.name text :: .openParen :: rest)) :
    ∀ tokens, motive tokens
  | [] => nil
  | [token] => single token [] (not_opensCall_before_nil [token]) nil
  | token :: next :: rest => by
      by_cases hopens : OpensCall [token] (next :: rest)
      · rcases hopens with ⟨text, hlast, hnone, hhead⟩
        cases hlast
        cases hhead
        exact callee text rest hnone (pieceInduction nil single callee rest)
      · exact single token (next :: rest) hopens
          (pieceInduction nil single callee (next :: rest))

theorem ofTokens_ne_nil {tokens : List Token} (h : tokens ≠ []) : ofTokens tokens ≠ [] := by
  cases tokens using pieceInduction with
  | nil => exact absurd rfl h
  | single token rest hopens _ =>
      rw [ofTokens_single hopens]
      exact List.cons_ne_nil _ _
  | callee text rest hnone _ =>
      rw [ofTokens_callee hnone]
      exact List.cons_ne_nil _ _

/-! ## Lists of tokens side by side -/

theorem opensCall_cons_cons {token next : Token} {before after : List Token} :
    OpensCall (token :: next :: before) after ↔ OpensCall (next :: before) after := by
  unfold OpensCall
  rw [List.getLast?_cons_cons]

theorem opensCall_append_right {before middle after : List Token} (h : middle ≠ []) :
    OpensCall before (middle ++ after) ↔ OpensCall before middle := by
  cases middle with
  | nil => exact absurd rfl h
  | cons token middle => exact Iff.rfl

theorem not_opensCall_append {token : Token} {rest after : List Token}
    (h : ¬ OpensCall [token] rest) (hafter : ¬ OpensCall (token :: rest) after) :
    ¬ OpensCall [token] (rest ++ after) ∧ ¬ OpensCall rest after := by
  cases rest with
  | nil => exact ⟨hafter, not_opensCall_nil after⟩
  | cons next rest =>
      rw [opensCall_cons_cons] at hafter
      rw [opensCall_append_right (List.cons_ne_nil next rest)]
      exact ⟨h, hafter⟩

theorem not_opensCall_behind_callee {text : String} {rest after : List Token}
    (h : ¬ OpensCall (.name text :: .openParen :: rest) after) : ¬ OpensCall rest after := by
  cases rest with
  | nil => exact not_opensCall_nil after
  | cons next rest =>
      rw [opensCall_cons_cons, opensCall_cons_cons] at h
      exact h

theorem ofTokens_append {before after : List Token} (h : ¬ OpensCall before after) :
    ofTokens (before ++ after) = ofTokens before ++ ofTokens after := by
  induction before using pieceInduction with
  | nil => rfl
  | single token rest hopens ih =>
      rcases not_opensCall_append hopens h with ⟨htoken, hrest⟩
      rw [List.cons_append, ofTokens_single htoken, ih hrest, ofTokens_single hopens]
      rfl
  | callee text rest hnone ih =>
      have hrest := not_opensCall_behind_callee h
      rw [List.cons_append, List.cons_append, ofTokens_callee hnone, ofTokens_callee hnone]
      rw [ih hrest]
      rfl

theorem ofTokens_append_of_head {before after : List Token}
    (h : after.head? ≠ some .openParen) :
    ofTokens (before ++ after) = ofTokens before ++ ofTokens after :=
  ofTokens_append (not_opensCall_of_head h)

/-! ## The tokens of a role -/

/-- The tokens that have a role: one, or a name with the parenthesis that opens its call. -/
inductive Spells : List Token → Role → Prop where
  | number (value : Float) : Spells [.number value] (operand (.number value))
  | constant {text : String} {constant : Constant} : Constant.named? text = some constant →
      Spells [.name text] (operand (.number constant.value))
  | name {text : String} : Constant.named? text = none →
      Spells [.name text] (operand (.name text))
  | openGroup : Spells [.openParen] openGroup
  | openCall {text : String} : Constant.named? text = none →
      Spells [.name text, .openParen] (openCall text)
  | close : Spells [.closeParen] close
  | comma : Spells [.comma] comma
  | operator (symbol : Char) : Spells [.operator symbol] (operator symbol)
  | suffix (symbol : Char) : Spells [.suffix symbol] (suffix symbol)

def Proper (role : Role) : Prop :=
  ∃ word, Spells word role

theorem spells_alone {token : Token} (h : token ≠ .blank) : Spells [token] (alone token) := by
  cases token with
  | blank => exact absurd rfl h
  | name text =>
      cases hnamed : Constant.named? text with
      | none =>
          rw [alone, hnamed]
          exact .name hnamed
      | some constant =>
          rw [alone, hnamed]
          exact .constant hnamed
  | number value => exact .number value
  | operator symbol => exact .operator symbol
  | suffix symbol => exact .suffix symbol
  | openParen => exact .openGroup
  | closeParen => exact .close
  | comma => exact .comma

theorem exists_spelling {tokens : List Token} (h : Token.blank ∉ tokens) :
    ∃ words : List (List Token), words.flatten = tokens ∧
      List.Forall₂ Spells words (ofTokens tokens) := by
  induction tokens using pieceInduction with
  | nil => exact ⟨[], rfl, .nil⟩
  | single token rest hopens ih =>
      rw [List.mem_cons, not_or] at h
      rcases ih h.2 with ⟨words, hwords, hspells⟩
      rw [ofTokens_single hopens]
      refine ⟨[token] :: words, ?_, .cons (spells_alone (Ne.symm h.1)) hspells⟩
      rw [List.flatten_cons, hwords]
      rfl
  | callee text rest hnone ih =>
      rw [List.mem_cons, List.mem_cons, not_or, not_or] at h
      rcases ih h.2.2 with ⟨words, hwords, hspells⟩
      rw [ofTokens_callee hnone]
      refine ⟨[.name text, .openParen] :: words, ?_, .cons (.openCall hnone) hspells⟩
      rw [List.flatten_cons, hwords]
      rfl

theorem proper_of_forall₂_spells {words : List (List Token)} {roles : List Role}
    (h : List.Forall₂ Spells words roles) : ∀ role ∈ roles, role.Proper := by
  induction h with
  | nil => simp
  | cons hword _ ih =>
      rw [List.forall_mem_cons]
      exact ⟨⟨_, hword⟩, ih⟩

theorem proper_of_mem_ofTokens {tokens : List Token} (h : Token.blank ∉ tokens) :
    ∀ role ∈ ofTokens tokens, role.Proper := by
  rcases exists_spelling h with ⟨words, _, hspells⟩
  exact proper_of_forall₂_spells hspells

end Role
end Calculator
