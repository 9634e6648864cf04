import Calculator.Decimal.Numeral
import Mathlib.Data.List.TakeWhile

/-!
# The syntax of numerals

A numeral is well formed if its parts are what their names say: digits, perhaps with
a point and more digits, and perhaps an exponent with at least one digit.  The texts
of well-formed numerals are the ones that the scanner takes off the front of a text.
It takes the longest of them.  If a numeral ends before its exponent, then the text
behind it may go on with digits, with a point or with an exponent, and the scanner
goes on with it.  Otherwise every part of the numeral ends where the scanner sees it
end.

The main statements are `exists_scan?_append` and `read?_text`: a text that starts
with a numeral is scanned at least as far, and the text of a numeral is always
readable as a number.
-/

namespace Calculator

/-! ## Well-formed parts -/

structure Exponent.WellFormed (e : Exponent) : Prop where
  mark : e.mark = 'e' ∨ e.mark = 'E'
  sign : ∀ c ∈ e.sign, c = '+' ∨ c = '-'
  digits_ne_nil : e.digits ≠ []
  digits : ∀ c ∈ e.digits, c.isDigit = true

structure Numeral.WellFormed (n : Numeral) : Prop where
  whole : ∀ c ∈ n.whole, c.isDigit = true
  fraction : ∀ digits ∈ n.fraction, ∀ c ∈ digits, c.isDigit = true
  /-- There are digits on one side of the point at least. -/
  mantissa : n.whole ≠ [] ∨ ∃ digits, n.fraction = some digits ∧ digits ≠ []
  exponent : ∀ e ∈ n.exponent, e.WellFormed

/-! ## Scanning an exponent -/

theorem takeWhile_append_of_stop {p : Char → Bool} {run rest : List Char}
    (hrun : ∀ c ∈ run, p c = true) (hstop : ∀ c ∈ rest.head?, p c = false) :
    (run ++ rest).takeWhile p = run ∧ (run ++ rest).dropWhile p = rest := by
  rw [List.takeWhile_append_of_pos hrun, List.dropWhile_append_of_pos hrun]
  cases rest with
  | nil => simp
  | cons c rest =>
      have hc : p c = false := hstop c rfl
      simp [hc]

theorem takeWhile_append_point {run : List Char} (hrun : ∀ c ∈ run, c.isDigit = true)
    (rest : List Char) : (run ++ '.' :: rest).takeWhile Char.isDigit = run ∧
      (run ++ '.' :: rest).dropWhile Char.isDigit = '.' :: rest := by
  apply takeWhile_append_of_stop hrun
  intro c hc
  cases hc
  rfl

namespace Exponent

variable {e : Exponent} {cs rest : List Char}

theorem splitSign_append (h : e.WellFormed) (rest : List Char) :
    splitSign (e.sign.toList ++ (e.digits ++ rest)) = (e.sign, e.digits ++ rest) := by
  rcases e with ⟨mark, sign, digits⟩
  cases sign with
  | some c =>
      rcases h.sign c rfl with rfl | rfl
      · rfl
      · rfl
  | none =>
      cases digits with
      | nil => exact absurd rfl h.digits_ne_nil
      | cons d digits =>
          have hdigit := h.digits d List.mem_cons_self
          show splitSign (d :: (digits ++ rest)) = (none, d :: (digits ++ rest))
          unfold splitSign
          split
          · rename_i heq
            cases heq
            exact absurd hdigit (by decide)
          · rename_i heq
            cases heq
            exact absurd hdigit (by decide)
          · rfl

theorem isMark_iff {c : Char} : isMark c = true ↔ c = 'e' ∨ c = 'E' := by
  unfold isMark
  simp

theorem scan?_append (h : e.WellFormed) (rest : List Char) :
    scan? (e.text ++ rest) =
      some (⟨e.mark, e.sign, e.digits ++ rest.takeWhile Char.isDigit⟩,
        rest.dropWhile Char.isDigit) := by
  have hmark : isMark e.mark = true := isMark_iff.mpr h.mark
  rw [text, List.cons_append, List.append_assoc, scan?]
  simp only [splitSign_append h]
  rw [List.takeWhile_append_of_pos h.digits, List.dropWhile_append_of_pos h.digits]
  simp [hmark, h.digits_ne_nil]

theorem scan?_of_not_isMark (h : ∀ c ∈ cs.head?, isMark c = false) : scan? cs = none := by
  cases cs with
  | nil => rfl
  | cons c cs =>
      have hc : isMark c = false := h c rfl
      simp [scan?, hc]

theorem wellFormed_of_scan? (h : scan? cs = some (e, rest)) : e.WellFormed := by
  cases cs with
  | nil => cases h
  | cons mark tail =>
      simp only [scan?] at h
      split at h
      · rename_i hscan
        rw [Bool.and_eq_true, isMark_iff] at hscan
        cases h
        refine ⟨hscan.1, ?_, ?_, ?_⟩
        · intro c hc
          unfold splitSign at hc
          split at hc
          · cases hc
            exact Or.inr rfl
          · cases hc
            exact Or.inl rfl
          · cases hc
        · intro hnil
          dsimp only at hnil
          rw [hnil] at hscan
          cases hscan.2
        · intro c hc
          exact List.mem_takeWhile_imp hc
      · cases h

end Exponent

/-! ## Scanning a numeral -/

namespace Numeral

variable {n : Numeral} {cs rest : List Char}

/-- Whether a numeral that has no exponent cannot go on in a text. -/
def Stops (rest : List Char) : Prop :=
  ∀ c ∈ rest.head?, c.isDigit = false ∧ c ≠ '.' ∧ Exponent.isMark c = false

theorem stops_nil : Stops [] := by
  intro c hc
  cases hc

def mantissaText (n : Numeral) : List Char :=
  n.whole ++ n.fraction.elim [] ('.' :: ·)

theorem text_eq (n : Numeral) : n.text = n.mantissaText ++ n.exponent.elim [] Exponent.text := by
  rw [text, mantissaText, List.append_assoc]

theorem mantissa?_append (h : n.WellFormed)
    (hstop : ∀ c ∈ rest.head?, c.isDigit = false ∧ c ≠ '.') :
    mantissa? (n.mantissaText ++ rest) = some (n.whole, n.fraction, rest) := by
  have hdigit : ∀ c ∈ rest.head?, c.isDigit = false := by
    intro c hc
    exact (hstop c hc).1
  rcases n with ⟨whole, fraction, exponent⟩
  rcases h with ⟨hwhole, hfraction, hmantissa, _⟩
  unfold mantissa? mantissaText
  cases fraction with
  | none =>
      have hne : whole ≠ [] := by
        simpa using hmantissa
      rcases takeWhile_append_of_stop hwhole hdigit with ⟨htake, hdrop⟩
      simp only [Option.elim_none, List.append_nil, htake, hdrop]
      split
      · exact absurd rfl (hstop '.' rfl).2
      · simp [hne]
  | some digits =>
      rcases takeWhile_append_of_stop (hfraction digits rfl) hdigit with ⟨htake, hdrop⟩
      rcases takeWhile_append_point hwhole (digits ++ rest) with ⟨htake', hdrop'⟩
      have hne : ¬ (whole.isEmpty && digits.isEmpty) = true := by
        simpa [or_iff_not_imp_left] using hmantissa
      simp only [Option.elim_some, List.append_assoc, List.cons_append, htake', hdrop', htake,
        hdrop]
      rw [if_neg hne]

/-- A mantissa at the front of a text is at most as long as the one that is found there. -/
theorem exists_mantissa?_append (h : n.WellFormed) (rest : List Char) :
    ∃ whole fraction after, mantissa? (n.mantissaText ++ rest) = some (whole, fraction, after) ∧
      n.mantissaText.length ≤ (whole ++ fraction.elim [] ('.' :: ·)).length := by
  rcases n with ⟨whole, fraction, exponent⟩
  rcases h with ⟨hwhole, hfraction, hmantissa, _⟩
  unfold mantissa? mantissaText
  cases fraction with
  | none =>
      have hne : ¬ (whole ++ rest.takeWhile Char.isDigit).isEmpty = true := by
        rw [List.isEmpty_iff]
        exact List.append_ne_nil_of_left_ne_nil (by simpa using hmantissa) _
      simp only [Option.elim_none, List.append_nil, List.takeWhile_append_of_pos hwhole,
        List.dropWhile_append_of_pos hwhole]
      split
      · rw [if_neg (by simp [List.isEmpty_iff.not.mp hne])]
        exact ⟨_, _, _, rfl, by simp⟩
      · rw [if_neg hne]
        exact ⟨_, _, _, rfl, by simp⟩
  | some digits =>
      rcases takeWhile_append_point hwhole (digits ++ rest) with ⟨htake, hdrop⟩
      have hne : ¬ (whole.isEmpty && (digits ++ rest.takeWhile Char.isDigit).isEmpty) = true := by
        simp only [Bool.and_eq_true, List.isEmpty_iff, List.append_eq_nil_iff]
        intro hnil
        simp [hnil] at hmantissa
      simp only [Option.elim_some, List.append_assoc, List.cons_append, htake, hdrop,
        List.takeWhile_append_of_pos (hfraction digits rfl)]
      rw [if_neg hne]
      exact ⟨_, _, _, rfl, by simp⟩

theorem wellFormed_of_mantissa? {whole : List Char} {fraction : Option (List Char)}
    (h : mantissa? cs = some (whole, fraction, rest)) :
    (∀ c ∈ whole, c.isDigit = true) ∧ (∀ digits ∈ fraction, ∀ c ∈ digits, c.isDigit = true) ∧
      (whole ≠ [] ∨ ∃ digits, fraction = some digits ∧ digits ≠ []) := by
  unfold mantissa? at h
  dsimp only at h
  split at h
  · rename_i tail _
    split at h
    · cases h
    · rename_i hne
      cases h
      refine ⟨fun c hc => List.mem_takeWhile_imp hc, ?_, ?_⟩
      · intro digits hdigits c hc
        cases hdigits
        exact List.mem_takeWhile_imp hc
      · rw [Bool.and_eq_true, List.isEmpty_iff, List.isEmpty_iff, not_and_or] at hne
        rcases hne with hne | hne
        · exact Or.inl hne
        · exact Or.inr ⟨_, rfl, hne⟩
  · split at h
    · cases h
    · rename_i hne
      cases h
      rw [List.isEmpty_iff] at hne
      refine ⟨fun c hc => List.mem_takeWhile_imp hc, ?_, Or.inl hne⟩
      intro digits hdigits
      cases hdigits

theorem wellFormed_of_scan? (h : scan? cs = some (n, rest)) : n.WellFormed := by
  simp only [scan?, Option.map_eq_some_iff] at h
  rcases h with ⟨⟨whole, fraction, after⟩, hmantissa, heq⟩
  rcases wellFormed_of_mantissa? hmantissa with ⟨hwhole, hfraction, hne⟩
  split at heq
  · rename_i hscan
    cases heq
    refine ⟨hwhole, hfraction, hne, ?_⟩
    intro e he
    cases he
    exact Exponent.wellFormed_of_scan? hscan
  · cases heq
    refine ⟨hwhole, hfraction, hne, ?_⟩
    intro e he
    cases he

/-- The digits of the exponent are the only part that goes on. -/
theorem scan?_append_of_exponent (h : n.WellFormed) {e : Exponent} (he : n.exponent = some e)
    (rest : List Char) :
    scan? (n.text ++ rest) =
      some (⟨n.whole, n.fraction, some ⟨e.mark, e.sign, e.digits ++ rest.takeWhile Char.isDigit⟩⟩,
        rest.dropWhile Char.isDigit) := by
  have hwell := h.exponent e he
  have hstop : ∀ c ∈ (e.text ++ rest).head?, c.isDigit = false ∧ c ≠ '.' := by
    intro c hc
    cases hc
    rcases hwell.mark with hmark | hmark
    · rw [hmark]
      decide
    · rw [hmark]
      decide
  rw [text_eq, he, Option.elim_some, List.append_assoc, scan?, mantissa?_append h hstop]
  simp only [Option.map_some, Exponent.scan?_append hwell]

theorem scan?_append_of_stops (h : n.WellFormed) (hstops : Stops rest) :
    scan? (n.text ++ rest) = some (n, rest) := by
  rcases n with ⟨whole, fraction, exponent⟩
  cases exponent with
  | none =>
      have hstop : ∀ c ∈ rest.head?, c.isDigit = false ∧ c ≠ '.' := by
        intro c hc
        exact ⟨(hstops c hc).1, (hstops c hc).2.1⟩
      have hnone : Exponent.scan? rest = none := by
        apply Exponent.scan?_of_not_isMark
        intro c hc
        exact (hstops c hc).2.2
      rw [text_eq, Option.elim_none, List.append_nil, scan?, mantissa?_append h hstop]
      simp only [Option.map_some, hnone]
  | some e =>
      have hdigit : ∀ c ∈ rest.head?, c.isDigit = false := by
        intro c hc
        exact (hstops c hc).1
      have hnil : ∀ c ∈ ([] : List Char), c.isDigit = true := by
        intro c hc
        cases hc
      rcases takeWhile_append_of_stop hnil hdigit with ⟨htake, hdrop⟩
      rw [List.nil_append] at htake hdrop
      rw [scan?_append_of_exponent h rfl, htake, hdrop, List.append_nil]

theorem exists_scan?_append (h : n.WellFormed) (rest : List Char) :
    ∃ found after, scan? (n.text ++ rest) = some (found, after) ∧
      n.text.length ≤ found.text.length := by
  cases hexponent : n.exponent with
  | some e =>
      refine ⟨_, _, scan?_append_of_exponent h hexponent rest, ?_⟩
      rw [text, text, hexponent]
      simp [Exponent.text]
  | none =>
      rcases exists_mantissa?_append h rest with ⟨whole, fraction, after, hmantissa, hlength⟩
      rw [text_eq, hexponent, Option.elim_none, List.append_nil, scan?, hmantissa]
      simp only [Option.map_some]
      split
      · refine ⟨_, _, rfl, Nat.le_trans hlength ?_⟩
        simp [text]
      · refine ⟨_, _, rfl, Nat.le_trans hlength ?_⟩
        simp [text]

theorem exists_text_eq_cons (h : n.WellFormed) :
    ∃ c cs, n.text = c :: cs ∧ (c.isDigit = true ∨ c = '.') := by
  rcases n with ⟨whole, fraction, exponent⟩
  cases whole with
  | cons c whole => exact ⟨c, _, rfl, Or.inl (h.whole c List.mem_cons_self)⟩
  | nil =>
      rcases h.mantissa with hwhole | ⟨digits, rfl, _⟩
      · exact absurd rfl hwhole
      · exact ⟨'.', _, rfl, Or.inr rfl⟩

theorem mem_text (h : n.WellFormed) {c : Char} (hc : c ∈ n.text) :
    c.isDigit = true ∨ c ∈ ['.', 'e', 'E', '+', '-'] := by
  rcases n with ⟨whole, fraction, exponent⟩
  rw [text, List.mem_append, List.mem_append] at hc
  rcases hc with hwhole | hfraction | hexponent
  · exact Or.inl (h.whole c hwhole)
  · cases fraction with
    | none => cases hfraction
    | some digits =>
        rcases List.mem_cons.mp hfraction with rfl | hdigit
        · exact Or.inr (by simp)
        · exact Or.inl (h.fraction digits rfl c hdigit)
  · cases exponent with
    | none => cases hexponent
    | some e =>
        have hwell := h.exponent e rfl
        rcases List.mem_cons.mp hexponent with rfl | hrest
        · rcases hwell.mark with hmark | hmark <;> simp [hmark]
        · rcases List.mem_append.mp hrest with hsign | hdigit
          · rcases hwell.sign c (Option.mem_toList.mp hsign) with rfl | rfl <;> simp
          · exact Or.inl (hwell.digits c hdigit)

theorem toLower_of_numeralStart {c : Char} (h : c.isDigit = true ∨ c = '.') : c.toLower = c := by
  rcases h with h | rfl
  · unfold Char.toLower
    split
    · rename_i hupper
      simp only [Char.isDigit, Bool.and_eq_true, decide_eq_true_eq, ge_iff_le,
        UInt32.le_iff_toNat_le] at h hupper
      have hA : 'A'.val.toNat = 65 := rfl
      have h9 : '9'.val.toNat = 57 := rfl
      omega
    · rfl
  · rfl

theorem named?_text (h : n.WellFormed) : named? n.text = none := by
  rcases exists_text_eq_cons h with ⟨c, cs, htext, hc⟩
  have hstart : ∀ first rest, (n.text.map Char.toLower) = first :: rest →
      first.isDigit = true ∨ first = '.' := by
    intro first rest hlower
    rw [htext, List.map_cons, toLower_of_numeralStart hc] at hlower
    cases hlower
    exact hc
  unfold named?
  split
  case h_4 => rfl
  all_goals
    rename_i hname
    have hlower := congrArg String.toList hname
    rw [String.toList_ofList] at hlower
    exact absurd (hstart _ _ hlower) (by decide)

theorem splitSign_text (h : n.WellFormed) : Exponent.splitSign n.text = (none, n.text) := by
  rcases exists_text_eq_cons h with ⟨c, cs, htext, hc⟩
  rw [htext]
  unfold Exponent.splitSign
  split
  · rename_i heq
    cases heq
    exact absurd hc (by decide)
  · rename_i heq
    cases heq
    exact absurd hc (by decide)
  · rfl

theorem read?_text (h : n.WellFormed) :
    read? (String.ofList n.text) = some n.value.toDouble := by
  have hscan := scan?_append_of_stops h stops_nil
  rw [List.append_nil] at hscan
  rw [read?, String.toList_ofList, splitSign_text h]
  simp only [named?_text h, hscan]
  rfl

end Numeral
end Calculator
