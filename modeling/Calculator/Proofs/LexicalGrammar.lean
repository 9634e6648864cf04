import Calculator.Lexeme
import Calculator.Proofs.NumeralSyntax

/-!
# The lexical grammar

The lexemes of an expression are described here as texts, one class after the other,
each with the token that its texts stand for.  The description says nothing of how a
text is scanned.  The classes can be told apart by their first characters, so the
scanner settles on a class at once and finds the longest lexeme of this class.
-/

namespace Calculator

/-! ## Lexemes -/

/-- The texts of lexemes, and the token, if any, that each stands for. -/
inductive IsLexeme : List Char → Option Token → Prop where
  | number {n : Numeral} :
      n.WellFormed → IsLexeme n.text (some (.number n.value.toDouble))
  | percent {n : Numeral} :
      n.WellFormed → IsLexeme (n.text ++ ['%']) (some (.number (n.value.toDouble / 100)))
  | name {c : Char} {cs : List Char} :
      c.isAlpha = true ∨ c = '_' →
      (∀ d ∈ cs, d.isAlpha = true ∨ d = '_' ∨ d.isDigit = true) →
      IsLexeme (c :: cs) (some (.name (String.ofList ((c :: cs).map Char.toLower))))
  | operator {c : Char} :
      c ∈ ['+', '-', '*', '/', '^', '%'] → IsLexeme [c] (some (.operator c))
  | suffix : IsLexeme ['!'] (some (.suffix '!'))
  | openParen : IsLexeme ['('] (some .openParen)
  | closeParen : IsLexeme [')'] (some .closeParen)
  | comma : IsLexeme [','] (some .comma)
  | blanks {cs : List Char} :
      cs ≠ [] → (∀ c ∈ cs, c = ' ' ∨ c = '\t' ∨ c = '\n') → IsLexeme cs none

/-! ## Classes of characters -/

namespace Lexeme

theorem isBlank_iff {c : Char} : isBlank c = true ↔ c = ' ' ∨ c = '\t' ∨ c = '\n' := by
  unfold isBlank
  simp [or_assoc]

theorem isNameStart_iff {c : Char} : isNameStart c = true ↔ c.isAlpha = true ∨ c = '_' := by
  unfold isNameStart
  simp

theorem isNameChar_iff {c : Char} :
    isNameChar c = true ↔ c.isAlpha = true ∨ c = '_' ∨ c.isDigit = true := by
  unfold isNameChar
  rw [Bool.or_eq_true, isNameStart_iff, or_assoc]

theorem mem_symbols_of_isSymbol {c : Char} (h : isSymbol c = true) :
    c ∈ ['(', ')', ',', '!', '+', '-', '*', '/', '%', '^'] := by
  unfold isSymbol Token.ofSymbol? at h
  split at h
  case h_11 => cases h
  all_goals simp

theorem eq_false_of_isSymbol {p : Char → Bool} {c : Char}
    (hp : List.any ['(', ')', ',', '!', '+', '-', '*', '/', '%', '^'] p = false)
    (h : isSymbol c = true) : p c = false := by
  rw [List.any_eq_false] at hp
  exact Bool.eq_false_iff.mpr (hp c (mem_symbols_of_isSymbol h))

theorem isSymbol_operator {c : Char} (h : c ∈ ['+', '-', '*', '/', '^', '%']) :
    isSymbol c = true ∧ Token.ofSymbol? c = some (.operator c) := by
  simp only [List.mem_cons, List.not_mem_nil, or_false] at h
  rcases h with rfl | rfl | rfl | rfl | rfl | rfl <;> exact ⟨rfl, rfl⟩

theorem isLexeme_symbol {c : Char} (h : isSymbol c = true) :
    IsLexeme [c] (Token.ofSymbol? c) := by
  have hmem := mem_symbols_of_isSymbol h
  simp only [List.mem_cons, List.not_mem_nil, or_false] at hmem
  rcases hmem with rfl | rfl | rfl | rfl | rfl | rfl | rfl | rfl | rfl | rfl
  · exact .openParen
  · exact .closeParen
  · exact .comma
  · exact .suffix
  all_goals exact .operator (by simp)

theorem not_isBlank_of_numeralStart {c : Char} (h : c.isDigit = true ∨ c = '.') :
    isBlank c = false ∧ isNameStart c = false ∧ isSymbol c = false := by
  have hblank : isBlank c ≠ true := by
    rw [ne_eq, isBlank_iff]
    intro hc
    rcases hc with rfl | rfl | rfl <;> simp [Char.isDigit] at h
  have hname : isNameStart c ≠ true := by
    rw [ne_eq, isNameStart_iff]
    intro hc
    rcases hc with hc | rfl
    · rcases h with h | rfl
      · unfold Char.isAlpha Char.isUpper Char.isLower at hc
        unfold Char.isDigit at h
        simp only [Bool.or_eq_true, Bool.and_eq_true, decide_eq_true_eq, ge_iff_le,
          UInt32.le_iff_toNat_le] at h hc
        have hA : 'A'.val.toNat = 65 := rfl
        have ha : 'a'.val.toNat = 97 := rfl
        have h9 : '9'.val.toNat = 57 := rfl
        omega
      · exact absurd hc (by decide)
    · simp [Char.isDigit] at h
  have hsymbol : isSymbol c ≠ true := by
    intro hc
    rcases h with h | rfl
    · have hdigit : c.isDigit = false := eq_false_of_isSymbol rfl hc
      rw [h] at hdigit
      cases hdigit
    · cases hc
  exact ⟨Bool.eq_false_iff.mpr hblank, Bool.eq_false_iff.mpr hname, Bool.eq_false_iff.mpr hsymbol⟩

end Lexeme

/-! ## Scanning a lexeme -/

namespace Lexeme

variable {c : Char} {cs text rest : List Char} {token : Option Token} {lexeme : Lexeme}

theorem scan?_of_isBlank (h : isBlank c = true) (cs : List Char) :
    scan? (c :: cs) = some (blanks (c :: cs.takeWhile isBlank), cs.dropWhile isBlank) := by
  rw [scan?, if_pos h]

theorem scan?_of_isNameStart (h : isNameStart c = true) (cs : List Char) :
    scan? (c :: cs) = some (name (c :: cs.takeWhile isNameChar), cs.dropWhile isNameChar) := by
  have hblank : ¬ isBlank c = true := by
    rw [isBlank_iff]
    intro hc
    rcases hc with rfl | rfl | rfl <;> exact absurd h (by decide)
  rw [scan?, if_neg hblank, if_pos h]

theorem scan?_of_isSymbol (h : isSymbol c = true) (cs : List Char) :
    scan? (c :: cs) = some (symbol c, cs) := by
  have hblank : isBlank c = false := eq_false_of_isSymbol rfl h
  have hname : isNameStart c = false := eq_false_of_isSymbol rfl h
  rw [scan?, hblank, hname, if_pos h]
  simp

/-- Every numeral that is found can be read, so no number fails for its value. -/
theorem scanNumber?_eq (cs : List Char) :
    scanNumber? cs = (Numeral.scan? cs).map fun (numeral, rest) =>
      withPercent numeral numeral.value.toDouble rest := by
  rw [scanNumber?]
  cases hscan : Numeral.scan? cs with
  | none => rfl
  | some found =>
      rcases found with ⟨numeral, rest⟩
      show (Numeral.read? (String.ofList numeral.text)).map _ = _
      rw [Numeral.read?_text (Numeral.wellFormed_of_scan? hscan)]
      rfl

theorem scan?_of_numeralStart (h : c.isDigit = true ∨ c = '.') :
    scan? (c :: cs) = (Numeral.scan? (c :: cs)).map fun (numeral, rest) =>
      withPercent numeral numeral.value.toDouble rest := by
  rcases not_isBlank_of_numeralStart h with ⟨hblank, hname, hsymbol⟩
  rw [scan?, hblank, hname, hsymbol, ← scanNumber?_eq]
  simp

theorem isLexeme_of_withPercent {n : Numeral} (h : n.WellFormed)
    (hlexeme : withPercent n n.value.toDouble cs = (lexeme, rest)) :
    IsLexeme lexeme.text lexeme.token? := by
  unfold withPercent at hlexeme
  split at hlexeme
  · cases hlexeme
    exact .percent h
  · cases hlexeme
    have hnumber := IsLexeme.number h
    rw [← List.append_nil n.text] at hnumber
    exact hnumber

theorem length_le_withPercent (n : Numeral) (value : Float) (cs : List Char) :
    n.text.length ≤ (withPercent n value cs).1.text.length := by
  unfold withPercent
  split
  · rw [Lexeme.text, List.length_append]
    exact Nat.le_add_right _ _
  · rw [Lexeme.text, List.length_append]
    exact Nat.le_add_right _ _

theorem isLexeme_of_scan? (h : scan? cs = some (lexeme, rest)) :
    IsLexeme lexeme.text lexeme.token? := by
  cases cs with
  | nil => cases h
  | cons c cs =>
      rw [scan?] at h
      split at h
      · rename_i hblank
        cases h
        refine .blanks (List.cons_ne_nil _ _) ?_
        intro d hd
        rcases List.mem_cons.mp hd with rfl | hd
        · exact isBlank_iff.mp hblank
        · exact isBlank_iff.mp (List.mem_takeWhile_imp hd)
      · split at h
        · rename_i hname
          cases h
          refine .name (isNameStart_iff.mp hname) ?_
          intro d hd
          exact isNameChar_iff.mp (List.mem_takeWhile_imp hd)
        · split at h
          · rename_i hsymbol
            cases h
            exact isLexeme_symbol hsymbol
          · rw [scanNumber?_eq, Option.map_eq_some_iff] at h
            rcases h with ⟨⟨numeral, after⟩, hnumeral, hlexeme⟩
            have hwell := Numeral.wellFormed_of_scan? hnumeral
            exact isLexeme_of_withPercent hwell hlexeme

theorem scan?_numeral_append {n : Numeral} (h : n.WellFormed) (rest : List Char) :
    scan? (n.text ++ rest) = (Numeral.scan? (n.text ++ rest)).map fun (numeral, rest) =>
      withPercent numeral numeral.value.toDouble rest := by
  rcases Numeral.exists_text_eq_cons h with ⟨c, cs, htext, hc⟩
  rw [htext, List.cons_append]
  exact scan?_of_numeralStart hc

theorem stops_percent (rest : List Char) : Numeral.Stops ('%' :: rest) := by
  intro c hc
  cases hc
  decide

theorem scan?_percent_append {n : Numeral} (h : n.WellFormed) (rest : List Char) :
    scan? ((n.text ++ ['%']) ++ rest) = some (number n n.value.toDouble true, rest) := by
  rw [List.append_assoc, scan?_numeral_append h]
  show (Numeral.scan? (n.text ++ '%' :: rest)).map _ = _
  rw [Numeral.scan?_append_of_stops h (stops_percent rest)]
  rfl

/-- Where a lexeme starts, the one that is cut off is at least as long. -/
theorem exists_scan?_append (h : IsLexeme text token) (rest : List Char) :
    ∃ lexeme after, scan? (text ++ rest) = some (lexeme, after) ∧
      text.length ≤ lexeme.text.length := by
  cases h with
  | number hwell =>
      rename_i n
      rcases Numeral.exists_scan?_append hwell rest with ⟨found, after, hscan, hlength⟩
      rw [scan?_numeral_append hwell, hscan, Option.map_some]
      exact ⟨_, _, rfl, Nat.le_trans hlength (length_le_withPercent found _ after)⟩
  | percent hwell => exact ⟨_, _, scan?_percent_append hwell rest, Nat.le_refl _⟩
  | name hstart hrest =>
      rename_i c cs
      have hall : ∀ d ∈ cs, isNameChar d = true := by
        intro d hd
        exact isNameChar_iff.mpr (hrest d hd)
      refine ⟨_, _, scan?_of_isNameStart (isNameStart_iff.mpr hstart) _, ?_⟩
      show (c :: cs).length ≤ (c :: (cs ++ rest).takeWhile isNameChar).length
      rw [List.takeWhile_append_of_pos hall]
      simp
  | blanks hne hall =>
      cases text with
      | nil => exact absurd rfl hne
      | cons c cs =>
          have hblank : ∀ d ∈ c :: cs, isBlank d = true := by
            intro d hd
            exact isBlank_iff.mpr (hall d hd)
          rw [List.forall_mem_cons] at hblank
          refine ⟨_, _, scan?_of_isBlank hblank.1 _, ?_⟩
          show (c :: cs).length ≤ (c :: (cs ++ rest).takeWhile isBlank).length
          rw [List.takeWhile_append_of_pos hblank.2]
          simp
  | operator hmem =>
      exact ⟨_, _, scan?_of_isSymbol (isSymbol_operator hmem).1 _, Nat.le_refl _⟩
  | suffix | openParen | closeParen | comma => exact ⟨_, _, scan?_of_isSymbol rfl _, Nat.le_refl _⟩

theorem exists_scan?_eq (h : IsLexeme text token) :
    ∃ lexeme, scan? text = some (lexeme, []) ∧ lexeme.text = text ∧ lexeme.token? = token := by
  cases h with
  | number hwell =>
      rename_i n
      have hscan := scan?_numeral_append hwell []
      rw [Numeral.scan?_append_of_stops hwell Numeral.stops_nil, List.append_nil] at hscan
      exact ⟨_, hscan, List.append_nil _, rfl⟩
  | percent hwell =>
      have hscan := scan?_percent_append hwell []
      rw [List.append_nil] at hscan
      exact ⟨_, hscan, rfl, rfl⟩
  | name hstart hrest =>
      rename_i c cs
      have hall : ∀ d ∈ cs, isNameChar d = true := by
        intro d hd
        exact isNameChar_iff.mpr (hrest d hd)
      have hscan := scan?_of_isNameStart (isNameStart_iff.mpr hstart) cs
      rw [List.takeWhile_eq_self_iff.mpr hall, List.dropWhile_eq_nil_iff.mpr hall] at hscan
      exact ⟨_, hscan, rfl, rfl⟩
  | blanks hne hall =>
      cases text with
      | nil => exact absurd rfl hne
      | cons c cs =>
          have hblank : ∀ d ∈ c :: cs, isBlank d = true := by
            intro d hd
            exact isBlank_iff.mpr (hall d hd)
          rw [List.forall_mem_cons] at hblank
          have hscan := scan?_of_isBlank hblank.1 cs
          rw [List.takeWhile_eq_self_iff.mpr hblank.2, List.dropWhile_eq_nil_iff.mpr hblank.2]
            at hscan
          exact ⟨_, hscan, rfl, rfl⟩
  | operator hmem =>
      rcases isSymbol_operator hmem with ⟨hsymbol, htoken⟩
      exact ⟨_, scan?_of_isSymbol hsymbol [], rfl, htoken⟩
  | suffix | openParen | closeParen | comma => exact ⟨_, scan?_of_isSymbol rfl [], rfl, rfl⟩

end Lexeme

/-! ## What the classes have in common -/

theorem IsLexeme.token_unique {text : List Char} {token other : Option Token}
    (h : IsLexeme text token) (hother : IsLexeme text other) : token = other := by
  rcases Lexeme.exists_scan?_eq h with ⟨lexeme, hscan, _, rfl⟩
  rcases Lexeme.exists_scan?_eq hother with ⟨lexeme', hscan', _, rfl⟩
  rw [hscan] at hscan'
  cases hscan'
  rfl

theorem IsLexeme.ne_nil {text : List Char} {token : Option Token} (h : IsLexeme text token) :
    text ≠ [] := by
  rcases Lexeme.exists_scan?_eq h with ⟨lexeme, hscan, rfl, _⟩
  exact Lexeme.text_ne_nil_of_scan? hscan

end Calculator
