import Calculator.Decimal.Basic
import Calculator.Double.Arithmetic

/-!
# Numerals

A numeral is a run of digits with at most one point, at least one digit on either
side of it, and an optional exponent: `e`, an optional sign, and at least one
digit.  `Numeral.scan?` takes the longest numeral off the front of a text; an `e`
without digits is not part of it.  `Numeral.read?` reads a whole text, in which a
sign and the names of the infinite values are allowed as well.

The main statement is `text_append_of_scan?`: a numeral's text and what follows
it make up the text that was scanned.
-/

namespace Calculator

/-! ## Parts of a numeral -/

structure Exponent where
  mark : Char
  sign : Option Char
  digits : List Char
  deriving Repr, DecidableEq

structure Numeral where
  whole : List Char
  /-- The digits after the point, if there is a point. -/
  fraction : Option (List Char)
  exponent : Option Exponent
  deriving Repr, DecidableEq

namespace Exponent

def text (e : Exponent) : List Char :=
  e.mark :: (e.sign.toList ++ e.digits)

def value (e : Exponent) : Int :=
  if e.sign = some '-' then -(Digits.value e.digits : Int) else Digits.value e.digits

def isMark (c : Char) : Bool :=
  c = 'e' || c = 'E'

def splitSign : List Char → Option Char × List Char
  | '-' :: rest => (some '-', rest)
  | '+' :: rest => (some '+', rest)
  | cs => (none, cs)

def scan? : List Char → Option (Exponent × List Char)
  | [] => none
  | mark :: tail =>
      let (sign, rest) := splitSign tail
      let digits := rest.takeWhile Char.isDigit
      if isMark mark && !digits.isEmpty then
        some (⟨mark, sign, digits⟩, rest.dropWhile Char.isDigit)
      else none

end Exponent

namespace Numeral

def text (n : Numeral) : List Char :=
  n.whole ++ (n.fraction.elim [] ('.' :: ·) ++ n.exponent.elim [] Exponent.text)

def value (n : Numeral) : Decimal :=
  let fraction := n.fraction.getD []
  ⟨Digits.value (n.whole ++ fraction),
    n.exponent.elim 0 Exponent.value - fraction.length⟩

/-! ## Scanning -/

def mantissa? (cs : List Char) : Option (List Char × Option (List Char) × List Char) :=
  let whole := cs.takeWhile Char.isDigit
  match cs.dropWhile Char.isDigit with
  | '.' :: tail =>
      let fraction := tail.takeWhile Char.isDigit
      if whole.isEmpty && fraction.isEmpty then none
      else some (whole, some fraction, tail.dropWhile Char.isDigit)
  | rest => if whole.isEmpty then none else some (whole, none, rest)

/-- The longest numeral at the front of a text and the text after it. -/
def scan? (cs : List Char) : Option (Numeral × List Char) :=
  (mantissa? cs).map fun (whole, fraction, rest) =>
    match Exponent.scan? rest with
    | some (exponent, rest) => (⟨whole, fraction, some exponent⟩, rest)
    | none => (⟨whole, fraction, none⟩, rest)

/-! ## Reading -/

def named? (name : List Char) : Option Nat :=
  match String.ofList (name.map Char.toLower) with
  | "inf" | "infinity" => some Double.infinity
  | "nan" => some (Double.magnitude Double.undefinedValue)
  | _ => none

def read? (text : String) : Option Float :=
  let (sign, rest) := Exponent.splitSign text.toList
  let negative : Bool := sign = some '-'
  match named? rest, scan? rest with
  | some pattern, _ => some (Double.ofMagnitude negative pattern)
  | none, some (n, []) => some (Double.ofMagnitude negative n.value.pattern)
  | none, _ => none

end Numeral

/-! ## Nothing is lost in scanning -/

theorem Exponent.append_of_splitSign (cs : List Char) :
    (splitSign cs).1.toList ++ (splitSign cs).2 = cs := by
  unfold splitSign
  split <;> rfl

theorem Exponent.text_append_of_scan? {cs rest : List Char} {e : Exponent}
    (h : scan? cs = some (e, rest)) : e.text ++ rest = cs := by
  cases cs with
  | nil => simp [scan?] at h
  | cons mark tail =>
      simp only [scan?] at h
      split at h
      · cases h
        simp [text, append_of_splitSign]
      · cases h

namespace Numeral

theorem append_of_mantissa? {cs whole rest : List Char} {fraction : Option (List Char)}
    (h : mantissa? cs = some (whole, fraction, rest)) :
    whole ++ (fraction.elim [] ('.' :: ·) ++ rest) = cs := by
  have hsplit : cs.takeWhile Char.isDigit ++ cs.dropWhile Char.isDigit = cs :=
    List.takeWhile_append_dropWhile
  simp only [mantissa?] at h
  split at h
  · next tail hrest =>
      split at h
      · cases h
      · cases h
        rw [hrest] at hsplit
        simpa using hsplit
  · split at h
    · cases h
    · cases h
      exact hsplit

theorem text_append_of_scan? {cs rest : List Char} {n : Numeral}
    (h : scan? cs = some (n, rest)) : n.text ++ rest = cs := by
  simp only [scan?, Option.map_eq_some_iff] at h
  obtain ⟨⟨whole, fraction, after⟩, hmantissa, heq⟩ := h
  rw [← append_of_mantissa? hmantissa]
  split at heq
  · next hexponent =>
      cases heq
      have := Exponent.text_append_of_scan? hexponent
      simp_all [text]
  · cases heq
    simp [text]

theorem text_ne_nil_of_scan? {cs rest : List Char} {n : Numeral}
    (h : scan? cs = some (n, rest)) : n.text ≠ [] := by
  simp only [scan?, Option.map_eq_some_iff] at h
  obtain ⟨⟨whole, fraction, after⟩, hmantissa, heq⟩ := h
  have hnumeral : n.whole = whole ∧ n.fraction = fraction := by
    split at heq <;> cases heq <;> exact ⟨rfl, rfl⟩
  obtain ⟨rfl, rfl⟩ := hnumeral
  simp only [mantissa?] at hmantissa
  split at hmantissa
  · split at hmantissa
    · cases hmantissa
    · simp only [Option.some.injEq, Prod.mk.injEq] at hmantissa
      simp [text, ← hmantissa.2.1]
  · split at hmantissa
    · cases hmantissa
    · next hwhole =>
        simp only [Option.some.injEq, Prod.mk.injEq] at hmantissa
        simp_all [text]

end Numeral
end Calculator
