import Calculator.Decimal.Basic

/-!
# The shortest decimal of a double

For one, two, up to seventeen significant digits, the two neighbours of the exact
value on that decimal grid are rounded back to a double.  The first grid on which
one of them gives the double again is the answer; of two such neighbours the
nearer is taken, and of two equally near ones the upper.  A coarser grid has no
point that reads back, since with any point its neighbours of the value would
read back as well.
-/

namespace Calculator
namespace Decimal

def readsBack (pattern : Nat) (d : Decimal) : Bool :=
  d.pattern = pattern

/-- The better neighbour of a magnitude on the grid of `10 ^ exponent`, if one reads back. -/
def neighbour? (pattern : Nat) (exponent : Int) : Option Decimal :=
  let (num, den) := shiftTen (Double.units pattern) Double.unitsPerOne (-exponent)
  let below : Decimal := ⟨num / den, exponent⟩
  let above : Decimal := ⟨num / den + 1, exponent⟩
  match readsBack pattern below, readsBack pattern above with
  | true, true => if 2 * (num % den) < den then some below else some above
  | true, false => some below
  | false, true => some above
  | false, false => none

/-- All digits of a magnitude: a unit is `5 ^ 1074 / 10 ^ 1074`. -/
def allDigits (pattern : Nat) : Decimal :=
  ⟨Double.units pattern * Nat.pow 5 1074, -1074⟩

def shortest (pattern : Nat) : Decimal :=
  if pattern = 0 then ⟨0, 0⟩
  else
    let leading := leadingExponent (Double.units pattern) Double.unitsPerOne
    ((List.range 17).findSome? fun (further : Nat) => neighbour? pattern (leading - further)).getD
      (allDigits pattern)

/-! ## What the neighbours have in common -/

theorem readsBack_of_neighbour? {pattern : Nat} {exponent : Int} {d : Decimal}
    (h : neighbour? pattern exponent = some d) : readsBack pattern d = true := by
  revert h
  simp only [neighbour?]
  split
  · next hbelow habove =>
      split
      · rintro ⟨⟩; exact hbelow
      · rintro ⟨⟩; exact habove
  · next hbelow _ => rintro ⟨⟩; exact hbelow
  · next _ habove => rintro ⟨⟩; exact habove
  · rintro ⟨⟩

end Decimal
end Calculator
