import Calculator.Digits
import Mathlib.Data.List.Basic
import Mathlib.Data.List.Induction
import Mathlib.Tactic.Ring

/-!
# Runs of digits

What is written for a number is made of digits, as many as the number is long, and has no
zero in front.  Cutting zeros off the end of a run leaves one that does not end in a zero.
The value of a run is that of its front, moved to the left by the rest, and that of the rest.
-/

namespace Calculator
namespace Digits

/-! ## Single digits -/

theorem isDigit_digitChar {d : Nat} (h : d < 10) : (Nat.digitChar d).isDigit = true := by
  match d with
  | 0 | 1 | 2 | 3 | 4 | 5 | 6 | 7 | 8 | 9 => rfl
  | n + 10 => omega

theorem digitChar_eq_zero {d : Nat} (h : d < 10) (hzero : Nat.digitChar d = '0') : d = 0 := by
  rw [← digitValue_digitChar h, hzero]
  rfl

/-! ## All the digits of a number -/

theorem write_eq (n : Nat) :
    write n = (if n < 10 then [] else write (n / 10)) ++ [Nat.digitChar (n % 10)] := by
  rw [write]
  split
  · rename_i h
    rw [Nat.mod_eq_of_lt h]
    rfl
  · rfl

theorem write_ne_nil (n : Nat) : write n ≠ [] := by
  rw [write_eq]
  exact List.append_ne_nil_of_right_ne_nil _ (List.cons_ne_nil _ _)

theorem isDigit_of_mem_write (n : Nat) : ∀ c ∈ write n, c.isDigit = true := by
  induction n using Nat.strongRecOn with
  | ind n ih =>
      intro c hc
      rw [write_eq, List.mem_append, List.mem_singleton] at hc
      rcases hc with hc | rfl
      · split at hc
        · cases hc
        · exact ih (n / 10) (by omega) c hc
      · exact isDigit_digitChar (Nat.mod_lt n (by decide))

theorem head?_write {n : Nat} (hpos : 0 < n) : (write n).head? ≠ some '0' := by
  induction n using Nat.strongRecOn with
  | ind n ih =>
      rw [write_eq]
      split
      · rename_i h
        rw [Nat.mod_eq_of_lt h, List.nil_append, List.head?_cons, ne_eq, Option.some.injEq]
        intro hzero
        exact absurd (digitChar_eq_zero h hzero) hpos.ne'
      · rename_i h
        rw [List.head?_append_of_ne_nil _ (write_ne_nil _)]
        exact ih (n / 10) (by omega) (by omega)

theorem write_zero : write 0 = ['0'] := by
  rw [write_eq]
  rfl

theorem lt_pow_length_write (n : Nat) : n < 10 ^ (write n).length := by
  induction n using Nat.strongRecOn with
  | ind n ih =>
      rw [write_eq, List.length_append, List.length_singleton, Nat.pow_succ]
      split
      · simpa
      · have := ih (n / 10) (by omega)
        omega

theorem pow_length_write_le {n : Nat} (hpos : 0 < n) : 10 ^ (write n).length ≤ 10 * n := by
  induction n using Nat.strongRecOn with
  | ind n ih =>
      rw [write_eq, List.length_append, List.length_singleton, Nat.pow_succ]
      split
      · rw [List.length_nil]
        omega
      · have := ih (n / 10) (by omega) (by omega)
        omega

theorem length_write_eq {n places : Nat} (hle : 10 ^ places ≤ n) (hlt : n < 10 ^ (places + 1)) :
    (write n).length = places + 1 := by
  have hpos : 0 < n := Nat.lt_of_lt_of_le (Nat.pow_pos (by decide)) hle
  have hupper := Nat.lt_of_le_of_lt hle (lt_pow_length_write n)
  have hlower := pow_length_write_le hpos
  have h1 := (Nat.pow_lt_pow_iff_right (by decide : 1 < 10)).mp hupper
  have h2 : 10 ^ (write n).length < 10 ^ (places + 2) := by
    rw [Nat.pow_succ 10 (places + 1)]
    omega
  have h3 := (Nat.pow_lt_pow_iff_right (by decide : 1 < 10)).mp h2
  omega

/-! ## A given number of digits -/

theorem isDigit_of_mem_writePlaces (places n : Nat) :
    ∀ c ∈ writePlaces places n, c.isDigit = true := by
  induction places generalizing n with
  | zero =>
      intro c hc
      cases hc
  | succ places ih =>
      intro c hc
      rw [writePlaces, List.mem_append, List.mem_singleton] at hc
      rcases hc with hc | rfl
      · exact ih (n / 10) c hc
      · exact isDigit_digitChar (Nat.mod_lt n (by decide))

/-! ## Values of runs in sequence -/

theorem value_append (cs ds : List Char) :
    value (cs ++ ds) = value cs * 10 ^ ds.length + value ds := by
  induction ds using List.reverseRecOn with
  | nil => simp [value_nil]
  | append_singleton ds d ih =>
      rw [← List.append_assoc, value_concat, value_concat, ih, List.length_append,
        List.length_singleton, Nat.pow_succ]
      ring

theorem value_replicate_zero (count : Nat) : value (List.replicate count '0') = 0 := by
  induction count with
  | zero => rfl
  | succ count ih =>
      rw [List.replicate_succ', value_concat, ih]
      rfl

/-! ## Marks at the end -/

section

variable {mark : Char} {before after cs : List Char}

theorem trimEnd_append_marks (mark : Char) (cs : List Char) :
    ∃ count, trimEnd mark cs ++ List.replicate count mark = cs := by
  induction cs with
  | nil => exact ⟨0, rfl⟩
  | cons c cs ih =>
      rcases ih with ⟨count, ih⟩
      unfold trimEnd
      split
      · rename_i hnil
        rw [hnil, List.nil_append] at ih
        split
        · rename_i hmark
          refine ⟨count + 1, ?_⟩
          rw [List.replicate_succ, ih, hmark]
          rfl
        · refine ⟨count, ?_⟩
          rw [ih]
          rfl
      · rename_i d ds hcons
        refine ⟨count, ?_⟩
        rw [← hcons, List.cons_append, ih]

theorem getLast?_trimEnd (mark : Char) (cs : List Char) :
    (trimEnd mark cs).getLast? ≠ some mark := by
  induction cs with
  | nil => exact nofun
  | cons c cs ih =>
      unfold trimEnd
      split
      · split
        · exact nofun
        · rename_i hne
          intro hlast
          cases hlast
          exact hne rfl
      · rename_i d ds hcons
        rw [hcons] at ih
        rw [List.getLast?_cons_cons]
        exact ih

theorem trimEnd_of_getLast? (h : cs.getLast? ≠ some mark) : trimEnd mark cs = cs := by
  rcases trimEnd_append_marks mark cs with ⟨count, hcs⟩
  cases count with
  | zero =>
      rw [List.replicate_zero, List.append_nil] at hcs
      exact hcs
  | succ count =>
      rw [← hcs, List.replicate_succ', ← List.append_assoc, List.getLast?_concat] at h
      exact absurd rfl h

theorem trimEnd_cons_of_ne {c : Char} (h : c ≠ mark) (cs : List Char) :
    trimEnd mark (c :: cs) = c :: trimEnd mark cs := by
  rw [trimEnd]
  cases trimEnd mark cs with
  | nil => exact if_neg h
  | cons d ds => rfl

theorem trimEnd_append (before : List Char) (h : trimEnd mark after ≠ []) :
    trimEnd mark (before ++ after) = before ++ trimEnd mark after := by
  induction before with
  | nil => rfl
  | cons c before ih =>
      have hne : before ++ trimEnd mark after ≠ [] := List.append_ne_nil_of_right_ne_nil _ h
      rw [List.cons_append, trimEnd, ih]
      split
      · rename_i hnil
        exact absurd hnil hne
      · rename_i hcons
        rw [← hcons]
        rfl

theorem trimEnd_concat (mark : Char) (cs : List Char) :
    trimEnd mark (cs ++ [mark]) = trimEnd mark cs := by
  induction cs with
  | nil => simp [trimEnd]
  | cons c cs ih => rw [List.cons_append, trimEnd, trimEnd, ih]

end

end Digits
end Calculator
