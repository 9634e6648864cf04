import Calculator.Proofs.Accounting
import Mathlib.Data.List.ModifyLast

/-!
# Open brackets

Which brackets are open behind some tokens is told by the tokens alone: a bracket is open
unless one of the parentheses behind it closes it, and a comma is directly inside of it if no
bracket that is opened behind it is open there.  This looks ahead from each bracket and keeps
no stack.

A token that is added at the end changes the brackets at the end only.  A parenthesis adds a
bracket or removes the last one, and a comma is counted for the last one.  These are the
statements on `openBrackets`, first for a list of other tokens, and then for a closing
parenthesis and for a comma.
-/

namespace Calculator

open Token (OpensCall)

/-! ## What stays open -/

/-- The number of brackets opened before some tokens that are closed by these tokens. -/
def outerCloses : List Token → Nat
  | .openParen :: rest => outerCloses rest - 1
  | .closeParen :: rest => outerCloses rest + 1
  | _ :: rest => outerCloses rest
  | [] => 0

def unlessClosed (bracket : Pending) (rest : List Token) : List Pending :=
  if outerCloses rest = 0 then [bracket] else []

/--
The brackets that are opened by some tokens and still open behind them, outermost first.  A
call has the number of commas directly inside of it.
-/
def openBrackets : List Token → List Pending
  | .name text :: .openParen :: rest =>
      match Constant.named? text with
      | some _ => unlessClosed .group rest ++ openBrackets rest
      | none => unlessClosed (.call text (commasInside rest 0)) rest ++ openBrackets rest
  | .openParen :: rest => unlessClosed .group rest ++ openBrackets rest
  | _ :: rest => openBrackets rest
  | [] => []

def Pending.addComma : Pending → Pending
  | call function commas => .call function (commas + 1)
  | entry => entry

/-! ## Piece by piece -/

theorem openBrackets_single {token : Token} {rest : List Token}
    (h : ¬ OpensCall [token] rest) : openBrackets (token :: rest) =
      (if token = .openParen then unlessClosed .group rest else []) ++ openBrackets rest := by
  cases token with
  | name text =>
      cases rest with
      | nil => rfl
      | cons next rest =>
          cases next with
          | openParen =>
              cases hnamed : Constant.named? text with
              | some constant => simp [openBrackets, hnamed]
              | none => exact absurd ⟨text, rfl, hnamed, rfl⟩ h
          | number | operator | suffix | closeParen | comma | name | blank => rfl
  | openParen => rfl
  | number | operator | suffix | closeParen | comma | blank => rfl

theorem openBrackets_callee {text : String} (hnone : Constant.named? text = none)
    (rest : List Token) : openBrackets (.name text :: .openParen :: rest) =
      unlessClosed (.call text (commasInside rest 0)) rest ++ openBrackets rest := by
  rw [openBrackets, hnone]

/-! ## Tokens that neither close a bracket nor separate arguments -/

section

variable {word : List Token}

theorem outerCloses_append (hclose : .closeParen ∉ word) (read : List Token) :
    outerCloses (read ++ word) = outerCloses read := by
  induction read with
  | nil =>
      rw [List.nil_append, outerCloses]
      induction word with
      | nil => rfl
      | cons token rest ih =>
          rw [List.mem_cons, not_or] at hclose
          cases token with
          | openParen => rw [outerCloses, ih hclose.2]
          | closeParen => exact absurd rfl hclose.1
          | number | operator | suffix | comma | name | blank => exact ih hclose.2
  | cons token rest ih => cases token <;> simp [outerCloses, ih]

theorem commasInside_append (hcomma : .comma ∉ word) (read : List Token) (depth : Nat) :
    commasInside (read ++ word) depth = commasInside read depth := by
  induction read generalizing depth with
  | nil =>
      rw [List.nil_append, commasInside]
      induction word generalizing depth with
      | nil => rfl
      | cons token rest ih =>
          rw [List.mem_cons, not_or] at hcomma
          cases token with
          | comma => exact absurd rfl hcomma.1
          | closeParen =>
              cases depth with
              | zero => rfl
              | succ depth => exact ih hcomma.2 depth
          | openParen => exact ih hcomma.2 (depth + 1)
          | number | operator | suffix | name | blank => exact ih hcomma.2 depth
  | cons token rest ih => cases token <;> cases depth <;> simp [commasInside, ih]

theorem openBrackets_append {read : List Token} (hopens : ¬ OpensCall read word)
    (hclose : .closeParen ∉ word) (hcomma : .comma ∉ word) :
    openBrackets (read ++ word) = openBrackets read ++ openBrackets word := by
  have hkept (bracket : Pending) (rest : List Token) :
      unlessClosed bracket (rest ++ word) = unlessClosed bracket rest := by
    rw [unlessClosed, outerCloses_append hclose, unlessClosed]
  induction read using Role.pieceInduction with
  | nil => rfl
  | single token rest h ih =>
      rcases Role.not_opensCall_append h hopens with ⟨htoken, hrest⟩
      rw [List.cons_append, openBrackets_single htoken, openBrackets_single h, hkept, ih hrest,
        List.append_assoc]
  | callee text rest hnone ih =>
      have hrest := Role.not_opensCall_behind_callee hopens
      rw [List.cons_append, List.cons_append, openBrackets_callee hnone,
        openBrackets_callee hnone, hkept, commasInside_append hcomma, ih hrest, List.append_assoc]

theorem openBrackets_append_singleton (token : Token)
    (h : token ∉ [Token.openParen, .closeParen, .comma]) (read : List Token) :
    openBrackets (read ++ [token]) = openBrackets read := by
  rw [List.mem_cons, List.mem_pair, not_or, not_or] at h
  rcases h with ⟨hopen, hclose, hcomma⟩
  have hopens : ¬ OpensCall read [token] := Role.not_opensCall_of_head (by simpa using hopen)
  have hnone : openBrackets [token] = [] := by
    rw [openBrackets_single (Role.not_opensCall_before_nil _), if_neg hopen]
    rfl
  rw [openBrackets_append hopens (by simpa using Ne.symm hclose) (by simpa using Ne.symm hcomma),
    hnone, List.append_nil]

end

/-! ## A closing parenthesis -/

/-- No bracket is left of one and those behind it if they are closed, this one from outside. -/
theorem unlessClosed_append_eq_nil_iff (bracket : Pending) (rest : List Token) :
    unlessClosed bracket rest ++ openBrackets rest = [] ↔
      outerCloses rest ≠ 0 ∧ openBrackets rest = [] := by
  rw [List.append_eq_nil_iff, unlessClosed]
  split
  · simp [*]
  · simp [*]

theorem outerCloses_append_close (read : List Token) :
    outerCloses (read ++ [.closeParen]) =
      outerCloses read + if openBrackets read = [] then 1 else 0 := by
  -- the parenthesis closes a bracket behind this one, or this one, or one before it
  have hopened (bracket : Pending) (rest : List Token) :
      (outerCloses rest + if openBrackets rest = [] then 1 else 0) - 1 =
        outerCloses rest - 1 +
          if unlessClosed bracket rest ++ openBrackets rest = [] then 1 else 0 := by
    simp only [unlessClosed_append_eq_nil_iff]
    by_cases hnil : openBrackets rest = []
    · by_cases hzero : outerCloses rest = 0
      · simp [hnil, hzero]
      · simp [hnil, hzero]
        omega
    · simp [hnil]
  induction read using Role.pieceInduction with
  | nil => rfl
  | single token rest h ih =>
      rw [openBrackets_single h]
      cases token with
      | openParen =>
          rw [List.cons_append, outerCloses, outerCloses, ih, if_pos rfl]
          exact hopened _ rest
      | closeParen =>
          rw [List.cons_append, outerCloses, outerCloses, ih]
          exact Nat.add_right_comm _ _ 1
      | number | operator | suffix | comma | name | blank => exact ih
  | callee text rest hnone ih =>
      rw [openBrackets_callee hnone, List.cons_append, List.cons_append]
      simp only [outerCloses, ih]
      exact hopened _ rest

theorem openBrackets_append_close (read : List Token) :
    openBrackets (read ++ [.closeParen]) = (openBrackets read).dropLast := by
  have hopened (bracket : Pending) (rest : List Token) :
      unlessClosed bracket (rest ++ [.closeParen]) ++ (openBrackets rest).dropLast =
        (unlessClosed bracket rest ++ openBrackets rest).dropLast := by
    -- a bracket is closed here if it is the last one open, and kept if one behind it is
    unfold unlessClosed
    rw [outerCloses_append_close]
    by_cases hnil : openBrackets rest = []
    · by_cases hzero : outerCloses rest = 0
      · simp [hnil, hzero]
      · simp [hnil, hzero]
    · rw [if_neg hnil, Nat.add_zero, List.dropLast_append_of_ne_nil hnil]
  induction read using Role.pieceInduction with
  | nil => rfl
  | single token rest h ih =>
      have htoken : ¬ OpensCall [token] (rest ++ [.closeParen]) :=
        (Role.not_opensCall_append h (Role.not_opensCall_of_head (by simp))).1
      rw [List.cons_append, openBrackets_single htoken, openBrackets_single h, ih]
      split
      · exact hopened _ rest
      · rfl
  | callee text rest hnone ih =>
      rw [List.cons_append, List.cons_append, openBrackets_callee hnone,
        openBrackets_callee hnone, commasInside_append (by simp), ih]
      exact hopened _ rest

/-! ## A comma -/

theorem commasInside_append_comma (read : List Token) (depth : Nat) :
    commasInside (read ++ [.comma]) depth = commasInside read depth +
      if outerCloses read = depth ∧ openBrackets read = [] then 1 else 0 := by
  have hopened (bracket : Pending) (rest : List Token) (depth : Nat) :
      (outerCloses rest = depth + 1 ∧ openBrackets rest = []) ↔
        (outerCloses rest - 1 = depth ∧ unlessClosed bracket rest ++ openBrackets rest = []) := by
    rw [unlessClosed_append_eq_nil_iff]
    by_cases hnil : openBrackets rest = []
    · simp only [hnil, and_true]
      omega
    · simp [hnil]
  induction read using Role.pieceInduction generalizing depth with
  | nil => cases depth <;> rfl
  | single token rest h ih =>
      rw [openBrackets_single h]
      cases token with
      | openParen =>
          rw [List.cons_append, commasInside, commasInside, outerCloses, ih, if_pos rfl]
          exact congrArg _ (if_congr (hopened _ rest depth) rfl rfl)
      | closeParen =>
          cases depth with
          | zero => simp [commasInside, outerCloses]
          | succ depth => simp [commasInside, outerCloses, ih]
      | comma =>
          cases depth with
          | zero =>
              simp [commasInside, outerCloses, ih]
              omega
          | succ depth => simp [commasInside, outerCloses, ih]
      | number | operator | suffix | name | blank => exact ih depth
  | callee text rest hnone ih =>
      rw [openBrackets_callee hnone, List.cons_append, List.cons_append]
      simp only [commasInside, outerCloses, ih]
      exact congrArg _ (if_congr (hopened _ rest depth) rfl rfl)

theorem openBrackets_append_comma (read : List Token) :
    openBrackets (read ++ [.comma]) = (openBrackets read).modifyLast Pending.addComma := by
  have hcommas : Token.closeParen ∉ [Token.comma] := by simp
  have hopened (bracket after : Pending) (rest : List Token)
      (hafter : after =
        if outerCloses rest = 0 ∧ openBrackets rest = [] then bracket.addComma else bracket) :
      unlessClosed after (rest ++ [.comma]) ++ (openBrackets rest).modifyLast Pending.addComma =
        (unlessClosed bracket rest ++ openBrackets rest).modifyLast Pending.addComma := by
    unfold unlessClosed
    rw [outerCloses_append hcommas, hafter]
    by_cases hnil : openBrackets rest = []
    · rw [hnil]
      split
      · simp_all
        exact (List.modifyLast_concat Pending.addComma bracket []).symm
      · simp_all
    · rw [List.modifyLast_append_of_right_ne_nil _ _ _ hnil]
      simp [hnil]
  induction read using Role.pieceInduction with
  | nil => rfl
  | single token rest h ih =>
      have htoken : ¬ OpensCall [token] (rest ++ [.comma]) :=
        (Role.not_opensCall_append h (Role.not_opensCall_of_head (by simp))).1
      rw [List.cons_append, openBrackets_single htoken, openBrackets_single h, ih]
      split
      · apply hopened
        split <;> rfl
      · rfl
  | callee text rest hnone ih =>
      rw [List.cons_append, List.cons_append, openBrackets_callee hnone,
        openBrackets_callee hnone, ih]
      apply hopened
      rw [commasInside_append_comma]
      split <;> rfl

end Calculator
