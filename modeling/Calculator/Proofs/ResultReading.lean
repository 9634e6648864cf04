import Calculator.Evaluation
import Calculator.Proofs.NearestDouble
import Calculator.Proofs.ResultText
import Calculator.Proofs.Segmentation

/-!
# Results as expressions

The text of a result is an expression: a number, or a minus and a number.  Evaluated, it
gives the double that is nearest to what the text denotes, or fails if that is an infinity.

The main statement is `evaluate_resultText_nearest`.
-/

namespace Calculator

/-! ## Tokens of a numeral -/

theorem yields_numeral {n : Numeral} (h : n.WellFormed) :
    Yields n.text [.number n.value.toDouble] [] := by
  rcases Lexeme.exists_scan?_eq (IsLexeme.number h) with ⟨lexeme, hscan, htext, htoken⟩
  have hlongest := Lexeme.isLongest_of_scan? hscan
  rw [htext, htoken] at hlongest
  have hwhole : IsLongest n.text (some (.number n.value.toDouble)) (n.text ++ []) := by
    rw [List.append_nil]
    exact hlongest
  rw [← List.append_nil n.text]
  exact Yields.cons_of_isLongest hwhole (Yields.nil_of_not_startsLexeme not_startsLexeme_nil)

theorem yields_minus_append {cs rest : List Char} {tokens : List Token}
    (h : Yields cs tokens rest) :
    Yields ('-' :: cs) (.operator '-' :: tokens) rest := by
  have hlongest := Lexeme.isLongest_of_scan? (Lexeme.scan?_of_isSymbol (c := '-') rfl cs)
  exact Yields.cons_of_isLongest hlongest h

/-! ## Programs of one number -/

theorem Program.evaluate_number (environment : Environment) (v : Float) :
    Program.evaluate environment [.number v] =
      if Double.isFinite v then .ok v else .error (.evaluation (.notFinite v)) := by
  show Except.mapError _ (if Double.isFinite v then _ else _) = _
  cases Double.isFinite v with
  | false => rfl
  | true => rfl

theorem Program.evaluate_negated_number (environment : Environment) (v : Float) :
    Program.evaluate environment [.number v, .operator .negate] =
      if Double.isFinite (-v) then .ok (-v) else .error (.evaluation (.notFinite (-v))) := by
  show Except.mapError _ (if Double.isFinite (-v) then _ else _) = _
  cases Double.isFinite (-v) with
  | false => rfl
  | true => rfl

section

variable {source : String}

theorem evaluate_of_tokenize_number (environment : Environment) {v : Float}
    (h : tokenize source = .ok [.number v]) :
    evaluate environment source =
      if Double.isFinite v then .ok v else .error (.evaluation (.notFinite v)) := by
  rw [evaluate_eq, h, ← Program.evaluate_number environment]
  rfl

theorem evaluate_of_tokenize_minus (environment : Environment) {v : Float}
    (h : tokenize source = .ok [.operator '-', .number v]) :
    evaluate environment source =
      if Double.isFinite (-v) then .ok (-v) else .error (.evaluation (.notFinite (-v))) := by
  rw [evaluate_eq, h, ← Program.evaluate_negated_number environment]
  rfl

end

namespace NumberText

theorem exists_numeral_resultText {x : Float} (hfinite : Double.isFinite x = true) :
    ∃ n : Numeral, n.WellFormed ∧ ((resultText x).toList = n.text ∨
      (resultText x).toList = '-' :: n.text ∧ 0 < n.value.toRat) := by
  by_cases hzero : Double.value x = 0
  · rcases exists_numeral_zero with ⟨n, hwellFormed, htext, _⟩
    refine ⟨n, hwellFormed, Or.inl ?_⟩
    rw [resultText_of_value_eq_zero hzero, htext]
    rfl
  · rcases exists_shown_resultText hfinite hzero with ⟨n, hshown, htext⟩
    refine ⟨n, hshown.wellFormed, ?_⟩
    rw [htext]
    split
    · exact Or.inr ⟨rfl, hshown.pos⟩
    · exact Or.inl rfl

/-! ## Every result -/

theorem evaluate_resultText_nearest (environment : Environment) (x : Float)
    (hfinite : Double.isFinite x = true) :
    ∃ (q : ℚ) (w : Float), Denotes (resultText x).toList q ∧ Double.RoundsTo q w ∧
      ((∃ v, tokenize (resultText x) = .ok [.number v]) ∨
        ∃ v, tokenize (resultText x) = .ok [.operator '-', .number v]) ∧
      evaluate environment (resultText x) =
        if Double.isFinite w then .ok w else .error (.evaluation (.notFinite w)) := by
  rcases exists_numeral_resultText hfinite with ⟨n, hwellFormed, htext | ⟨htext, hpos⟩⟩
  · have htokens : tokenize (resultText x) = .ok [.number n.value.toDouble] := by
      apply tokenize_of_yields
      rw [htext]
      exact yields_numeral hwellFormed
    refine ⟨n.value.toRat, n.value.toDouble, ?_, Decimal.roundsTo_toDouble n.value,
      Or.inl ⟨_, htokens⟩, evaluate_of_tokenize_number environment htokens⟩
    rw [htext]
    exact Denotes.numeral hwellFormed
  · have htokens : tokenize (resultText x) = .ok [.operator '-', .number n.value.toDouble] := by
      apply tokenize_of_yields
      rw [htext]
      exact yields_minus_append (yields_numeral hwellFormed)
    refine ⟨-n.value.toRat, -n.value.toDouble, ?_, Decimal.roundsTo_neg_toDouble hpos,
      Or.inr ⟨_, htokens⟩, evaluate_of_tokenize_minus environment htokens⟩
    rw [htext]
    exact Denotes.minus hwellFormed

/-- The greatest double is shown as `1.7976931349e+308`, which is rounded to infinity. -/
theorem evaluate_resultText_nearest_greatest :
    Double.isFinite 1.7976931348623157e308 = true ∧
      ∃ (q : ℚ) (w : Float), Denotes (resultText 1.7976931348623157e308).toList q ∧
        Double.RoundsTo q w ∧
        ((∃ v, tokenize (resultText 1.7976931348623157e308) = .ok [.number v]) ∨
          ∃ v, tokenize (resultText 1.7976931348623157e308) = .ok [.operator '-', .number v]) ∧
        evaluate ⟨.degrees, 1, default⟩ (resultText 1.7976931348623157e308) =
          if Double.isFinite w then .ok w else .error (.evaluation (.notFinite w)) := by
  have hfinite : Double.isFinite 1.7976931348623157e308 = true := by decide +kernel
  exact ⟨hfinite, evaluate_resultText_nearest ⟨.degrees, 1, default⟩ _ hfinite⟩

end NumberText
end Calculator
