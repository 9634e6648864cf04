import Calculator.Proofs.ChainedEvaluation
import Calculator.Proofs.Independence
import Calculator.Proofs.LetterCase

/-!
# Errors in the text as it was typed

A session writes the letter pi out before it evaluates an expression, and a character that
starts no token is found in the text after that.  Its place is also its place in the text as
it was typed: both spellings take two bytes, and the letters of the longer one start names,
so that no error is found at them.

The main statement is `evaluate_unexpected_of_typed`.
-/

namespace Calculator
namespace Session

/-! ## Writing out a list of characters -/

def spelled (c : Char) : List Char :=
  if c = 'π' then ['p', 'i'] else [c]

theorem toList_spellPi (expression : String) :
    (spellPi expression).toList = expression.toList.flatMap spelled := by
  rw [spellPi, String.toList_ofList]
  rfl

theorem utf8ByteSize_spelled (c : Char) :
    (String.ofList (spelled c)).utf8ByteSize = c.utf8Size := by
  unfold spelled
  split
  · rename_i hpi
    rw [hpi]
    rfl
  · rw [Lexeme.utf8ByteSize_ofList_cons]
    rfl

theorem utf8ByteSize_flatMap_spelled (cs : List Char) :
    (String.ofList (cs.flatMap spelled)).utf8ByteSize = (String.ofList cs).utf8ByteSize := by
  induction cs with
  | nil => rfl
  | cons c cs ih =>
      rw [List.flatMap_cons, String.ofList_append, String.utf8ByteSize_append, ih,
        utf8ByteSize_spelled, Lexeme.utf8ByteSize_ofList_cons]

/-- A character that is no letter was typed as it is, and what is before it was typed before it. -/
theorem exists_typed_of_not_isAlpha {cs left right : List Char} {c : Char}
    (hc : c.isAlpha = false) (h : cs.flatMap spelled = left ++ c :: right) :
    ∃ before after, cs = before ++ c :: after ∧ before.flatMap spelled = left ∧ c ≠ 'π' := by
  induction cs generalizing left with
  | nil =>
      rw [List.flatMap_nil, List.nil_eq, List.append_eq_nil_iff] at h
      cases h.2
  | cons d cs ih =>
      rw [List.flatMap_cons] at h
      by_cases hpi : d = 'π'
      · rw [spelled, if_pos hpi] at h
        rcases left with _ | ⟨first, _ | ⟨second, left⟩⟩
        · cases h
          exact absurd hc (by decide)
        · cases h
          exact absurd hc (by decide)
        · rcases List.cons.inj h with ⟨rfl, htail⟩
          rcases List.cons.inj htail with ⟨rfl, hrest⟩
          rcases ih hrest with ⟨before, after, rfl, hbefore, hne⟩
          refine ⟨d :: before, after, rfl, ?_, hne⟩
          rw [List.flatMap_cons, spelled, if_pos hpi, hbefore]
          rfl
      · rw [spelled, if_neg hpi] at h
        rcases left with _ | ⟨first, left⟩
        · cases h
          exact ⟨[], cs, rfl, rfl, hpi⟩
        · rcases List.cons.inj h with ⟨rfl, hrest⟩
          rcases ih hrest with ⟨before, after, rfl, hbefore, hne⟩
          refine ⟨d :: before, after, rfl, ?_, hne⟩
          rw [List.flatMap_cons, spelled, if_neg hpi, hbefore]
          rfl

end Session

/-! ## Failures of a session -/

theorem tokenize_of_evaluate_lexical {environment : Environment} {source : String}
    {error : LexicalError} (h : evaluate environment source = .error (.lexical error)) :
    tokenize source = .error error := by
  rw [evaluate_eq] at h
  rcases Sequencing.bind_eq_error.mp h with htokens | ⟨tokens, _, hrest⟩
  · rcases Sequencing.mapError_eq_error.mp htokens with ⟨found, hfound, heq⟩
    cases heq
    exact hfound
  · rcases Sequencing.bind_eq_error.mp hrest with hprogram | ⟨program, _, hvalue⟩
    · rcases Sequencing.mapError_eq_error.mp hprogram with ⟨_, _, heq⟩
      cases heq
    · exact absurd trivial (Program.not_ofText_of_evaluate hvalue)

namespace Session

theorem evaluate_unexpected_of_typed (s : Session) (draws : Draws) (expression : String)
    (c : Char) (position : Nat)
    (h : (s.evaluate draws expression).1 = .error (.lexical (.unexpected c position)) ∨
      s.preview draws expression = .error (.lexical (.unexpected c position))) :
    ∃ before after : String, expression = before ++ String.singleton c ++ after ∧
      before.utf8ByteSize = position ∧ c ≠ 'π' ∧
      ∃ tokens, tokenize (spellPi before) = .ok tokens := by
  have hpreview : s.preview draws expression = .error (.lexical (.unexpected c position)) := by
    rcases h with h | h
    · rw [← evaluate_fst]
      exact h
    · exact h
  have herror := tokenize_of_evaluate_lexical hpreview
  rcases exists_segmentation (spellPi expression) with ⟨lexemes, rest, hcut⟩
  rcases (tokenize_eq_error_iff hcut c position).mp herror with ⟨hhead, hposition⟩
  rcases List.head?_eq_some_iff.mp hhead with ⟨right, rfl⟩
  -- the letters of `pi` are names, so the error is at none of them
  have hletter : c.isAlpha = false := by
    rw [← Bool.not_eq_true]
    intro halpha
    exact hcut.not_startsLexeme (startsLexeme_of_isAlpha halpha right)
  have htext := hcut.text_append.symm
  rw [toList_spellPi] at htext
  rcases exists_typed_of_not_isAlpha hletter htext with ⟨before, after, htyped, hbefore, hne⟩
  refine ⟨String.ofList before, String.ofList after, ?_, ?_, hne, ?_⟩
  · rw [← String.ofList_toList (s := expression), htyped, String.ofList_append,
      String.ofList_cons, String.append_assoc]
  · rw [hposition, ← hbefore, utf8ByteSize_flatMap_spelled]
  · have hpart := hcut.cut_part
    rw [← hbefore, ← String.toList_ofList (l := before), ← toList_spellPi] at hpart
    exact ⟨_, tokenize_of_cut hpart⟩

theorem evaluate_unexpected_of_typed_of_two_pi :
    (Session.evaluate {} default "2π*π€π").1 = .error (.lexical (.unexpected '€' 6)) ∧
      ∃ before after : String, "2π*π€π" = before ++ String.singleton '€' ++ after ∧
        before.utf8ByteSize = 6 ∧ '€' ≠ 'π' ∧ ∃ tokens, tokenize (spellPi before) = .ok tokens := by
  have htokens : tokenize (spellPi "2π*π€π") = .error (.unexpected '€' 6) := by decide +kernel
  have h : (Session.evaluate {} default "2π*π€π").1 = .error (.lexical (.unexpected '€' 6)) := by
    rw [evaluate_fst, preview, evaluate_eq, htokens]
    rfl
  exact ⟨h, evaluate_unexpected_of_typed {} _ _ _ _ (Or.inl h)⟩

end Session
end Calculator
