/-!
# Random numbers

An expression may ask for random numbers.  Where they come from is not said here: an
evaluation is given the numbers that it will draw, and what is stated about evaluations
holds for all of them.
-/

namespace Calculator

/-- The numbers that one evaluation draws, in this order, from `0` up to but without `1`. -/
structure Draws where
  number : Nat → Float
  inRange : ∀ index, 0 ≤ number index ∧ number index < 1

namespace Draws

/-- The numbers of a stream, with zeros for those that are out of range. -/
def ofStream (stream : Nat → Float) : Draws where
  number index := if 0 ≤ stream index ∧ stream index < 1 then stream index else 0
  inRange index := by
    split
    · assumption
    · decide +kernel

instance : Inhabited Draws :=
  ⟨ofStream fun _ => 0⟩

end Draws
end Calculator
