/-!
# Decimal digits

Natural numbers as digit characters, most significant first, and the value of a
run of digits.  `write` uses as many digits as the number needs, `writePlaces` a
given number of them, and `value` reads either back.
-/

namespace Calculator
namespace Digits

/-! ## Writing -/

def write (n : Nat) : List Char :=
  if n < 10 then [Nat.digitChar n]
  else write (n / 10) ++ [Nat.digitChar (n % 10)]
termination_by n

/-- The last digits of a natural number, as many as asked for. -/
def writePlaces : Nat → Nat → List Char
  | 0, _ => []
  | places + 1, n => writePlaces places (n / 10) ++ [Nat.digitChar (n % 10)]

/-- A text without the marks at its end. -/
def trimEnd (mark : Char) : List Char → List Char
  | [] => []
  | c :: cs =>
      match trimEnd mark cs with
      | [] => if c = mark then [] else [c]
      | d :: ds => c :: d :: ds

/-! ## Reading -/

def digitValue (c : Char) : Nat :=
  c.toNat - '0'.toNat

def value (cs : List Char) : Nat :=
  cs.foldl (fun n c => 10 * n + digitValue c) 0

/-! ## Reading what was written -/

theorem value_nil : value [] = 0 := rfl

theorem value_concat (cs : List Char) (c : Char) :
    value (cs ++ [c]) = 10 * value cs + digitValue c := by
  simp [value]

theorem digitValue_digitChar {d : Nat} (h : d < 10) : digitValue (Nat.digitChar d) = d := by
  match d with
  | 0 | 1 | 2 | 3 | 4 | 5 | 6 | 7 | 8 | 9 => rfl
  | n + 10 => omega

theorem value_write (n : Nat) : value (write n) = n := by
  induction n using Nat.strongRecOn with
  | ind n ih =>
      unfold write
      split
      · next h => simpa [value_nil, digitValue_digitChar h] using value_concat [] (Nat.digitChar n)
      · next h =>
          rw [value_concat, ih (n / 10) (by omega),
            digitValue_digitChar (Nat.mod_lt n (by omega))]
          omega

theorem value_writePlaces (places n : Nat) :
    value (writePlaces places n) = n % Nat.pow 10 places := by
  induction places generalizing n with
  | zero => simp [writePlaces, value_nil, Nat.mod_one]
  | succ places ih =>
      have hpow : Nat.pow 10 (places + 1) = 10 * Nat.pow 10 places := Nat.mul_comm _ _
      rw [writePlaces, value_concat, ih, digitValue_digitChar (Nat.mod_lt n (by omega)), hpow,
        Nat.mod_mul]
      omega

theorem length_writePlaces (places n : Nat) : (writePlaces places n).length = places := by
  induction places generalizing n with
  | zero => rfl
  | succ places ih => simp [writePlaces, ih]

end Digits
end Calculator
