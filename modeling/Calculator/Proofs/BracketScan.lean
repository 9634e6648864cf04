import Calculator.Proofs.Placement

/-!
# The verdict on an expression

Whether the tokens of an expression can be arranged, and what is wrong with them
otherwise, is decided by a scan that knows nothing of precedences and makes no
program.  It keeps the class of the last token and the brackets that are open.

The arrangement finds the same errors on its stack of pending operators and
brackets.  Three things tie the two together.  The brackets on the stack are those
that are open.  The last token is of the class that the arrangement remembers.  And
if it was an operator, then this operator is on top of the stack, whatever has been
released to put it there.
-/

namespace Calculator

/-!
## The scan

The scan keeps the class of the last token and the open brackets, and no operators.  What is
wrong with a token is tried in the order in which it is reported.
-/

inductive Bracket where
  | group
  | call (function : String)
  deriving Repr, DecidableEq

/--
The class of the last token.  An operand that is a name, but not that of a constant,
keeps the name, because a parenthesis behind it opens a call.
-/
inductive TokenClass where
  | start
  | operand
  | name (text : String)
  | operator (symbol : Char)
  | opening
  | comma
  | suffix
  | closing
  deriving Repr, DecidableEq

namespace TokenClass

def expectsOperand : TokenClass → Bool
  | start | operator _ | opening | comma => true
  | operand | name _ | suffix | closing => false

def operator? : TokenClass → Option Char
  | operator symbol => some symbol
  | _ => none

end TokenClass

structure BracketScan where
  last : TokenClass
  /-- The open brackets, innermost first. -/
  brackets : List Bracket
  deriving Repr, DecidableEq

namespace BracketScan

def start : BracketScan :=
  ⟨.start, []⟩

def readName (s : BracketScan) (text : String) : BracketScan :=
  match Constant.named? text with
  | some _ => { s with last := .operand }
  | none => { s with last := .name text }

/-- A parenthesis opens a call directly behind a name, and a group elsewhere. -/
def readOpen (s : BracketScan) : BracketScan :=
  match s.last with
  | .name function => ⟨.opening, .call function :: s.brackets⟩
  | _ => ⟨.opening, .group :: s.brackets⟩

def readOperator (s : BracketScan) (symbol : Char) : Except ArrangementError BracketScan :=
  if Operator.between? symbol = none then .error (.unknownOperator symbol)
  else if symbol ≠ '-' ∧ s.last.expectsOperand = true then .error (.missingOperand symbol)
  else .ok { s with last := .operator symbol }

def readSuffix (s : BracketScan) (symbol : Char) : Except ArrangementError BracketScan :=
  if Operator.behind? symbol = none then .error (.unknownOperator symbol)
  else if s.last.expectsOperand = true then .error (.missingOperand symbol)
  else .ok { s with last := .suffix }

def readComma (s : BracketScan) : Except ArrangementError BracketScan :=
  match s.last, s.brackets with
  | .operator symbol, _ => .error (.missingOperand symbol)
  | .opening, .call function :: _ | .comma, .call function :: _ => .error (.emptyArgument function)
  | _, .call _ :: _ => .ok { s with last := .comma }
  | _, _ => .error .misplacedComma

def readClose (s : BracketScan) : Except ArrangementError BracketScan :=
  match s.last, s.brackets with
  | .operator symbol, _ => .error (.missingOperand symbol)
  | _, [] => .error .mismatchedParentheses
  | .comma, .call function :: _ => .error (.emptyArgument function)
  | _, _ :: below => .ok ⟨.closing, below⟩

def read (s : BracketScan) : Token → Except ArrangementError BracketScan
  | .number _ => .ok { s with last := .operand }
  | .name text => .ok (s.readName text)
  | .openParen => .ok s.readOpen
  | .closeParen => s.readClose
  | .comma => s.readComma
  | .operator symbol => s.readOperator symbol
  | .suffix symbol => s.readSuffix symbol
  | .blank => .ok s

def readAll (s : BracketScan) (tokens : List Token) : Except ArrangementError BracketScan :=
  tokens.foldlM read s

def finish (s : BracketScan) : Except ArrangementError Unit :=
  match s.last, s.brackets with
  | .operator symbol, _ => .error (.missingOperand symbol)
  | _, [] => .ok ()
  | _, _ :: _ => .error .mismatchedParentheses

end BracketScan

/-- The first violation in the tokens of an expression, if there is one. -/
def verdict (tokens : List Token) : Except ArrangementError Unit := do
  let s ← BracketScan.start.readAll tokens
  s.finish

/-! ## Brackets on the stack -/

namespace Pending

def bracket? : Pending → Option Bracket
  | operator _ => none
  | group => some .group
  | call function _ => some (.call function)

def brackets (pending : List Pending) : List Bracket :=
  pending.filterMap bracket?

theorem brackets_operator (op : Operator) (pending : List Pending) :
    brackets (.operator op :: pending) = brackets pending := rfl

theorem brackets_release (p : Operator → Bool) (output : List Instruction)
    (pending : List Pending) : brackets (release p output pending).2 = brackets pending :=
  (filterMap_release (f := fun _ => none) (fun _ => rfl) (fun _ => rfl) p output pending).2

end Pending

/-! ## The scan follows the arrangement -/

def TokenClass.previous : TokenClass → Previous
  | start => .start
  | operand | name _ => .operand
  | operator _ => .operator
  | opening => .opening
  | comma => .comma
  | suffix => .suffix
  | closing => .closing

theorem TokenClass.expectsOperand_previous (last : TokenClass) :
    last.previous.expectsOperand = last.expectsOperand := by
  cases last <;> rfl

namespace Arrangement

open Sequencing (Agree)

/-- An arrangement and a scan that have read the same tokens. -/
structure Mirrors (a : Arrangement) (s : BracketScan) : Prop where
  previous : a.previous = s.last.previous
  dangling : a.dangling? = s.last.operator?
  brackets : Pending.brackets a.pending = s.brackets

variable {a : Arrangement} {s : BracketScan}

theorem mirrors_start : Mirrors start .start :=
  ⟨rfl, rfl, rfl⟩

theorem Mirrors.expectsOperand (h : Mirrors a s) :
    a.previous.expectsOperand = s.last.expectsOperand := by
  rw [h.previous, TokenClass.expectsOperand_previous]

theorem Mirrors.exists_drain (h : Mirrors a s) :
    ∃ output rest, Pending.drain a.output a.pending = (output, rest) ∧
      Pending.brackets rest = s.brackets ∧ ∀ op below, rest ≠ .operator op :: below := by
  cases hdrain : Pending.drain a.output a.pending with
  | mk output rest =>
      have hbrackets := Pending.brackets_release (fun _ => true) a.output a.pending
      rw [← Pending.drain, hdrain] at hbrackets
      refine ⟨output, rest, rfl, hbrackets.trans h.brackets, ?_⟩
      intro op below hrest
      rw [hrest] at hdrain
      exact Pending.drain_ne_operator hdrain

/-!
## One token

Where an arrangement and a scan mirror each other, the next token makes both fail with the
same error or mirror each other again.
-/

theorem mirrors_addOperator (h : Mirrors a s) {op : Operator} {symbol : Char}
    (hsymbol : op.symbol = symbol) :
    Mirrors (a.addOperator op) { s with last := .operator symbol } := by
  refine ⟨rfl, ?_, ?_⟩
  · rw [← hsymbol]
    rfl
  · rw [addOperator, Pending.brackets_operator, Pending.brackets_release]
    exact h.brackets

theorem symbol_of_between? {op : Operator} {symbol : Char}
    (h : Operator.between? symbol = some op) :
    op.symbol = symbol ∧ (op = .subtract ↔ symbol = '-') := by
  unfold Operator.between? at h
  split at h <;> cases h <;> exact ⟨rfl, by decide⟩

theorem agree_placeOperator (h : Mirrors a s) (symbol : Char) :
    Agree Mirrors (a.placeOperator symbol) (s.readOperator symbol) := by
  unfold placeOperator BracketScan.readOperator
  cases hbetween : Operator.between? symbol with
  | none => exact rfl
  | some op =>
      rcases symbol_of_between? hbetween with ⟨hsymbol, hminus⟩
      rw [if_neg (Option.some_ne_none op), h.expectsOperand]
      cases hexpects : s.last.expectsOperand with
      | false =>
          simp only [Bool.not_false, if_true, Bool.false_eq_true, and_false, if_false]
          exact mirrors_addOperator h hsymbol
      | true =>
          simp only [Bool.not_true, Bool.false_eq_true, if_false, and_true]
          by_cases hop : op = .subtract
          · rw [if_pos hop, if_neg (not_not_intro (hminus.mp hop)), hminus.mp hop]
            exact mirrors_addOperator h rfl
          · rw [if_neg hop, if_pos (mt hminus.mpr hop)]
            exact rfl

theorem agree_placeSuffix (h : Mirrors a s) (symbol : Char) :
    Agree Mirrors (a.placeSuffix symbol) (s.readSuffix symbol) := by
  unfold placeSuffix BracketScan.readSuffix
  cases Operator.behind? symbol with
  | none => exact rfl
  | some op =>
      rw [if_neg (Option.some_ne_none op)]
      dsimp only
      rw [h.expectsOperand]
      cases s.last.expectsOperand with
      | true => exact rfl
      | false => exact ⟨rfl, rfl, h.brackets⟩

theorem agree_placeComma (h : Mirrors a s) : Agree Mirrors a.placeComma s.readComma := by
  rcases h.exists_drain with ⟨output, rest, hdrain, hbrackets, hbracket⟩
  unfold placeComma BracketScan.readComma
  rw [h.dangling, h.previous, hdrain, ← hbrackets]
  cases rest with
  | nil => cases s.last <;> exact rfl
  | cons entry below =>
      cases entry with
      | operator op => exact absurd rfl (hbracket op below)
      | group => cases s.last <;> exact rfl
      | call function commas =>
          cases s.last with
          | operator symbol | opening | comma => exact rfl
          | start | operand | name | suffix | closing => exact ⟨rfl, rfl, rfl⟩

theorem agree_placeClose (h : Mirrors a s) : Agree Mirrors a.placeClose s.readClose := by
  rcases h.exists_drain with ⟨output, rest, hdrain, hbrackets, hbracket⟩
  unfold placeClose BracketScan.readClose
  rw [h.dangling, h.previous, hdrain, ← hbrackets]
  cases rest with
  | nil => cases s.last <;> exact rfl
  | cons entry below =>
      cases entry with
      | operator op => exact absurd rfl (hbracket op below)
      | group =>
          cases s.last with
          | operator symbol => exact rfl
          | start | operand | name | opening | comma | suffix | closing => exact ⟨rfl, rfl, rfl⟩
      | call function commas =>
          cases s.last with
          | operator symbol | comma => exact rfl
          | start | operand | name | opening | suffix | closing => exact ⟨rfl, rfl, rfl⟩

theorem agree_finish (h : Mirrors a s) : Agree (fun _ _ => True) a.finish s.finish := by
  rcases h.exists_drain with ⟨output, rest, hdrain, hbrackets, hbracket⟩
  unfold finish BracketScan.finish
  rw [h.dangling, hdrain, ← hbrackets]
  cases rest with
  | nil => cases s.last <;> first
      | exact trivial
      | exact rfl
  | cons entry below =>
      cases entry with
      | operator op => exact absurd rfl (hbracket op below)
      | group => cases s.last <;> exact rfl
      | call function commas => cases s.last <;> exact rfl

theorem agree_place_alone (h : Mirrors a s) {token : Token}
    (hcall : ∀ text, s.last = .name text → token ≠ .openParen) :
    Agree Mirrors (a.place (Role.alone token)) (s.read token) := by
  cases token with
  | number value => exact ⟨rfl, rfl, h.brackets⟩
  | name text =>
      rw [Role.alone, BracketScan.read, BracketScan.readName]
      cases Constant.named? text with
      | some constant => exact ⟨rfl, rfl, h.brackets⟩
      | none => exact ⟨rfl, rfl, h.brackets⟩
  | openParen =>
      have hopened : Mirrors (a.addOpening .group) ⟨.opening, .group :: s.brackets⟩ := by
        refine ⟨rfl, rfl, ?_⟩
        rw [← h.brackets]
        rfl
      rw [BracketScan.read, BracketScan.readOpen]
      split
      · rename_i text hlast
        exact absurd rfl (hcall text hlast)
      · exact hopened
  | closeParen => exact agree_placeClose h
  | comma => exact agree_placeComma h
  | operator symbol => exact agree_placeOperator h symbol
  | suffix symbol => exact agree_placeSuffix h symbol
  | blank => exact h

theorem mirrors_openCall (h : Mirrors a s) (text : String) :
    Mirrors (a.addOpening (.call text 0)) ⟨.opening, .call text :: s.brackets⟩ := by
  refine ⟨rfl, rfl, ?_⟩
  rw [← h.brackets]
  rfl

/-! ## Whole expressions -/

theorem last_of_readClose {next : BracketScan} (h : s.readClose = .ok next) :
    next.last = .closing := by
  rcases s with ⟨last, brackets⟩
  rcases brackets with _ | ⟨bracket, below⟩
  · cases last <;> cases h
  · cases bracket <;> cases last <;> cases h <;> rfl

theorem last_of_readComma {next : BracketScan} (h : s.readComma = .ok next) :
    next.last = .comma := by
  rcases s with ⟨last, brackets⟩
  rcases brackets with _ | ⟨bracket, below⟩
  · cases last <;> cases h
  · cases bracket <;> cases last <;> cases h <;> rfl

theorem eq_name_of_read {token : Token} {next : BracketScan} {text : String}
    (hblank : token ≠ .blank) (hread : s.read token = .ok next) (hlast : next.last = .name text) :
    token = .name text ∧ Constant.named? text = none := by
  cases token with
  | number value =>
      cases hread
      cases hlast
  | name other =>
      cases hread
      unfold BracketScan.readName at hlast
      split at hlast
      · cases hlast
      · rename_i hnone
        cases hlast
        exact ⟨rfl, hnone⟩
  | openParen =>
      cases hread
      unfold BracketScan.readOpen at hlast
      split at hlast <;> cases hlast
  | closeParen =>
      rw [last_of_readClose hread] at hlast
      cases hlast
  | comma =>
      rw [last_of_readComma hread] at hlast
      cases hlast
  | operator symbol =>
      rw [BracketScan.read, BracketScan.readOperator] at hread
      split_ifs at hread
      cases hread
      cases hlast
  | suffix symbol =>
      rw [BracketScan.read, BracketScan.readSuffix] at hread
      split_ifs at hread
      cases hread
      cases hlast
  | blank => exact absurd rfl hblank

theorem readAll_cons (s : BracketScan) (token : Token) (tokens : List Token) :
    s.readAll (token :: tokens) = s.read token >>= fun next => next.readAll tokens :=
  List.foldlM_cons

theorem readAll_callee (s : BracketScan) {text : String} (hnone : Constant.named? text = none)
    (rest : List Token) :
    s.readAll (.name text :: .openParen :: rest) =
      BracketScan.readAll ⟨.opening, .call text :: s.brackets⟩ rest := by
  rw [readAll_cons, BracketScan.read, BracketScan.readName, hnone]
  rfl

theorem agree_placeAll {tokens : List Token} (h : Mirrors a s) (hblank : .blank ∉ tokens)
    (hcall : ∀ text, s.last = .name text → tokens.head? ≠ some .openParen) :
    Agree Mirrors (a.placeAll (Role.ofTokens tokens)) (s.readAll tokens) := by
  induction tokens using Role.pieceInduction generalizing a s with
  | nil => exact h
  | single token rest hopens ih =>
      rw [List.mem_cons, not_or] at hblank
      have htoken : ∀ text, s.last = .name text → token ≠ .openParen := by
        intro text hlast heq
        exact hcall text hlast (congrArg some heq)
      rw [Role.ofTokens_single hopens, placeAll_cons, readAll_cons]
      apply (agree_place_alone h htoken).bind
      intro b next _ hread hnext
      apply ih hnext hblank.2
      intro text hlast hhead
      rcases eq_name_of_read (Ne.symm hblank.1) hread hlast with ⟨rfl, hnone⟩
      exact hopens ⟨text, rfl, hnone, hhead⟩
  | callee text rest hnone ih =>
      rw [List.mem_cons, List.mem_cons, not_or, not_or] at hblank
      rw [Role.ofTokens_callee hnone, placeAll_cons, readAll_callee s hnone]
      apply ih (mirrors_openCall h text) hblank.2.2
      intro name hlast
      cases hlast

end Arrangement

theorem agree_arrange {tokens : List Token} (hblank : .blank ∉ tokens) :
    Sequencing.Agree (fun _ _ => True) (arrange tokens) (verdict tokens) := by
  have hplaced := Arrangement.agree_placeAll Arrangement.mirrors_start hblank (by
    intro text hlast
    cases hlast)
  apply hplaced.bind
  intro a s _ _ hmirrors
  exact Arrangement.agree_finish hmirrors

/-- Tokens are arranged if the scan finds no violation, and fail with its first one otherwise. -/
theorem arrange_eq_verdict {tokens : List Token} (hblank : .blank ∉ tokens) :
    (arrange tokens).map (fun _ => ()) = verdict tokens := by
  have h := agree_arrange hblank
  cases harrange : arrange tokens with
  | ok program =>
      cases hverdict : verdict tokens with
      | ok _ => rfl
      | error error =>
          rw [harrange, hverdict] at h
          exact h.elim
  | error error =>
      cases hverdict : verdict tokens with
      | ok _ =>
          rw [harrange, hverdict] at h
          exact h.elim
      | error other =>
          rw [harrange, hverdict] at h
          exact congrArg Except.error h

theorem arrange_trailing_comma :
    .blank ∉ [Token.name "max", .openParen, .name "x", .operator '^', .openParen, .name "y",
      .closeParen, .comma, .closeParen, .operator '+'] ∧
    (arrange [.name "max", .openParen, .name "x", .operator '^', .openParen, .name "y",
      .closeParen, .comma, .closeParen, .operator '+']).map (fun _ => ()) =
      .error (.emptyArgument "max") := by
  have hblank : .blank ∉ [Token.name "max", .openParen, .name "x", .operator '^', .openParen,
      .name "y", .closeParen, .comma, .closeParen, .operator '+'] := by
    simp
  refine ⟨hblank, ?_⟩
  rw [arrange_eq_verdict hblank]
  rfl

end Calculator
