import Calculator.Builtin
import Calculator.Proofs.ExactValue
import Calculator.Proofs.Sequencing

/-!
# The extrema of several numbers

The least and the greatest of a list of doubles are found by going through the list with the
best number so far, which starts at an infinity.  A NaN is passed over, wherever it stands.
The infinity is last in the order in question, so it is not better than any number, and what
is found is one of the numbers of the list if there are any.  That alone fixes the result
up to the sign of a zero, so the order of the list does not matter, nor does it matter
whether parts of the list are gone through first.
-/

namespace Calculator
namespace Double

/-- What comes before all other numbers of a list, or the limit if the list has no numbers. -/
structure IsExtremum (before : Float → Float → Prop) (limit : Float) (xs : List Float)
    (x : Float) : Prop where
  of_number : ∀ y ∈ xs, isNaN y = false → x ∈ xs ∧ isNaN x = false ∧ before x y
  of_no_number : (∀ y ∈ xs, isNaN y = true) → x = limit

/-! ## Infinities -/

def positiveInfinity : Float :=
  ofMagnitude false infinity

def negativeInfinity : Float :=
  ofMagnitude true infinity

example : positiveInfinity = 1 / 0 ∧ negativeInfinity = -1 / 0 := by decide +kernel

theorem rank_ofMagnitude {pattern : Nat} (h : pattern ≤ infinity) (negative : Bool) :
    rank (ofMagnitude negative pattern) = if negative then -(pattern : Int) else pattern := by
  rw [rank, magnitude_ofMagnitude h, isNegative_ofMagnitude h]

theorem isNaN_ofMagnitude {pattern : Nat} (h : pattern ≤ infinity) (negative : Bool) :
    isNaN (ofMagnitude negative pattern) = false := by
  rw [isNaN, magnitude_ofMagnitude h]
  exact decide_eq_false (Nat.not_lt.mpr h)

theorem all_nan_or_exists_number (xs : List Float) :
    (∀ x ∈ xs, isNaN x = true) ∨ ∃ x ∈ xs, isNaN x = false := by
  by_cases hnan : ∀ x ∈ xs, isNaN x = true
  · exact Or.inl hnan
  · rw [not_forall₂] at hnan
    rcases hnan with ⟨x, hx, hnumber⟩
    exact Or.inr ⟨x, hx, Bool.eq_false_iff.mpr hnumber⟩

/-! ## Going through a list -/

/-- The better of two numbers, which has the smaller key; a NaN on the right is passed over. -/
def better (key : Float → Int) (x y : Float) : Float :=
  if isNaN y then x else if key y < key x then y else x

/-- Whether a number has a key that is greater than those of all other numbers. -/
structure IsLast (key : Float → Int) (limit : Float) : Prop where
  isNaN_eq_false : isNaN limit = false
  eq_of_le {y : Float} : isNaN y = false → key limit ≤ key y → y = limit

theorem greater_eq_better : greater = better fun x => -rank x := by
  funext x y
  simp only [greater, better, neg_lt_neg_iff]

variable {key : Float → Int} {limit x y z : Float} {xs ys : List Float}

theorem better_spec (key : Float → Int) (hx : isNaN x = false) (y : Float) :
    isNaN (better key x y) = false ∧ (better key x y = x ∨ better key x y = y) ∧
      key (better key x y) ≤ key x ∧ (isNaN y = false → key (better key x y) ≤ key y) := by
  unfold better
  split
  · rename_i hnan
    refine ⟨hx, Or.inl rfl, le_rfl, ?_⟩
    intro hy
    rw [hnan] at hy
    cases hy
  · rename_i hy
    split
    · rename_i hlt
      exact ⟨Bool.eq_false_iff.mpr hy, Or.inr rfl, hlt.le, fun _ => le_rfl⟩
    · rename_i hle
      exact ⟨hx, Or.inl rfl, le_rfl, fun _ => Int.not_lt.mp hle⟩

theorem foldl_better_spec (key : Float → Int) (hx : isNaN x = false) (xs : List Float) :
    isNaN (xs.foldl (better key) x) = false ∧
      (xs.foldl (better key) x = x ∨ xs.foldl (better key) x ∈ xs) ∧
      key (xs.foldl (better key) x) ≤ key x ∧
      ∀ y ∈ xs, isNaN y = false → key (xs.foldl (better key) x) ≤ key y := by
  induction xs generalizing x with
  | nil => exact ⟨hx, Or.inl rfl, le_rfl, by simp⟩
  | cons first rest ih =>
      rcases better_spec key hx first with ⟨hnumber, horigin, hleft, hright⟩
      rcases ih hnumber with ⟨hnumber', horigin', hleft', hright'⟩
      rw [List.foldl_cons]
      refine ⟨hnumber', ?_, hleft'.trans hleft, ?_⟩
      · rcases horigin' with heq | hmem
        · rw [heq, List.mem_cons]
          exact horigin.imp_right Or.inl
        · exact Or.inr (List.mem_cons_of_mem first hmem)
      · rw [List.forall_mem_cons]
        exact ⟨fun hfirst => hleft'.trans (hright hfirst), hright'⟩

theorem isExtremum_foldl (hlast : IsLast key limit) (xs : List Float) :
    IsExtremum (fun x y => key x ≤ key y) limit xs (xs.foldl (better key) limit) := by
  rcases foldl_better_spec key hlast.isNaN_eq_false xs with ⟨hnumber, horigin, _, hbest⟩
  constructor
  · intro y hy hy'
    refine ⟨?_, hnumber, hbest y hy hy'⟩
    rcases horigin with heq | hmem
    · have hle := hbest y hy hy'
      rw [heq] at hle ⊢
      rw [← hlast.eq_of_le hy' hle]
      exact hy
    · exact hmem
  · intro hnan
    rcases horigin with heq | hmem
    · exact heq
    · rw [hnan _ hmem] at hnumber
      cases hnumber

/-! ## Extrema of lists -/

namespace IsExtremum

variable {before other : Float → Float → Prop}

theorem imp (h : IsExtremum before limit xs x)
    (himp : ∀ {x y}, isNaN x = false → isNaN y = false → before x y → other x y) :
    IsExtremum other limit xs x where
  of_number := by
    intro y hy hnumber
    rcases h.of_number y hy hnumber with ⟨hmem, hx, hbefore⟩
    exact ⟨hmem, hx, himp hx hnumber hbefore⟩
  of_no_number := h.of_no_number

theorem perm (h : IsExtremum before limit xs x) (hperm : xs.Perm ys) :
    IsExtremum before limit ys x where
  of_number := by
    intro y hy hnumber
    rw [← hperm.mem_iff] at hy ⊢
    exact h.of_number y hy hnumber
  of_no_number := by
    intro hnan
    apply h.of_no_number
    intro y hy
    exact hnan y (hperm.mem_iff.mp hy)

theorem mem_or_eq_limit (h : IsExtremum before limit xs x) :
    (x ∈ xs ∧ isNaN x = false) ∨ x = limit := by
  rcases all_nan_or_exists_number xs with hnan | ⟨y, hy, hnumber⟩
  · exact Or.inr (h.of_no_number hnan)
  · rcases h.of_number y hy hnumber with ⟨hmem, hx, _⟩
    exact Or.inl ⟨hmem, hx⟩

theorem isNaN_eq_false (h : IsExtremum before limit xs x) (hlast : IsLast key limit) :
    isNaN x = false := by
  rcases h.mem_or_eq_limit with ⟨_, hx⟩ | rfl
  · exact hx
  · exact hlast.isNaN_eq_false

theorem key_eq (h : IsExtremum (fun x y => key x ≤ key y) limit xs x)
    (h' : IsExtremum (fun x y => key x ≤ key y) limit xs y) : key x = key y := by
  rcases all_nan_or_exists_number xs with hnan | ⟨z, hz, hnumber⟩
  · rw [h.of_no_number hnan, h'.of_no_number hnan]
  · rcases h.of_number z hz hnumber with ⟨hmem, hx, _⟩
    rcases h'.of_number z hz hnumber with ⟨hmem', hy, _⟩
    exact le_antisymm (h.of_number y hmem' hy).2.2 (h'.of_number x hmem hx).2.2

theorem append (hlast : IsLast key limit)
    (hx : IsExtremum (fun x y => key x ≤ key y) limit xs x)
    (hy : IsExtremum (fun x y => key x ≤ key y) limit ys y)
    (hz : IsExtremum (fun x y => key x ≤ key y) limit [x, y] z) :
    IsExtremum (fun x y => key x ≤ key y) limit (xs ++ ys) z := by
  have hleft := hz.of_number x (by simp) (hx.isNaN_eq_false hlast)
  have hright := hz.of_number y (by simp) (hy.isNaN_eq_false hlast)
  have horigin : z = x ∨ z = y := by simpa using hleft.1
  constructor
  · intro w hw hnumber
    rw [List.mem_append] at hw ⊢
    have hle : key z ≤ key w := by
      rcases hw with hw | hw
      · exact hleft.2.2.trans (hx.of_number w hw hnumber).2.2
      · exact hright.2.2.trans (hy.of_number w hw hnumber).2.2
    refine ⟨?_, hleft.2.1, hle⟩
    have hmem : z ∈ xs ∨ z ∈ ys ∨ z = limit := by
      rcases horigin with rfl | rfl
      · rcases hx.mem_or_eq_limit with ⟨hmem, _⟩ | heq
        · exact Or.inl hmem
        · exact Or.inr (Or.inr heq)
      · rcases hy.mem_or_eq_limit with ⟨hmem, _⟩ | heq
        · exact Or.inr (Or.inl hmem)
        · exact Or.inr (Or.inr heq)
    rcases hmem with hmem | hmem | rfl
    · exact Or.inl hmem
    · exact Or.inr hmem
    · rw [← hlast.eq_of_le hnumber hle]
      exact hw
  · intro hnan
    have hxlimit := hx.of_no_number fun w hw => hnan w (List.mem_append_left ys hw)
    have hylimit := hy.of_no_number fun w hw => hnan w (List.mem_append_right xs hw)
    rcases horigin with rfl | rfl
    · exact hxlimit
    · exact hylimit

end IsExtremum

/-! ## The last numbers in both directions -/

theorem isLast_positiveInfinity : IsLast rank positiveInfinity where
  isNaN_eq_false := isNaN_ofMagnitude le_rfl false
  eq_of_le := by
    intro y hy hle
    have hpos : 0 < infinity := by decide
    have hbound := magnitude_le_infinity hy
    rw [positiveInfinity, rank_ofMagnitude le_rfl, if_neg Bool.false_ne_true, rank] at hle
    rw [← ofMagnitude_eq_self hy, positiveInfinity]
    cases hnegative : isNegative y with
    | true =>
        rw [hnegative, if_pos rfl] at hle
        omega
    | false =>
        rw [hnegative, if_neg Bool.false_ne_true] at hle
        congr 1
        omega

theorem isLast_negativeInfinity : IsLast (fun x => -rank x) negativeInfinity where
  isNaN_eq_false := isNaN_ofMagnitude le_rfl true
  eq_of_le := by
    intro y hy hle
    have hpos : 0 < infinity := by decide
    have hbound := magnitude_le_infinity hy
    rw [negativeInfinity, rank_ofMagnitude le_rfl, if_pos rfl, rank] at hle
    rw [← ofMagnitude_eq_self hy, negativeInfinity]
    cases hnegative : isNegative y with
    | true =>
        rw [hnegative, if_pos rfl] at hle
        congr 1
        omega
    | false =>
        rw [hnegative, if_neg Bool.false_ne_true] at hle
        omega

end Double

/-! ## Functions with several arguments -/

namespace Builtin

open Double

/--
Whether a function takes an extremum of its arguments.  Then its value does not depend on their
order, and it can be found from the values for two parts, where both zeros are the same number.
-/
structure TakesExtremum (function : Builtin) (before : Float → Float → Prop) (limit : Float) :
    Prop where
  extremum (unit : AngleUnit) (draw : Float) {xs : List Float} : xs ≠ [] →
    ∃ x, function.apply unit draw xs = .ok x ∧ IsExtremum before limit xs x
  perm (unit : AngleUnit) (draw : Float) {xs ys : List Float} : xs ≠ [] → xs.Perm ys →
    ∃ x y, function.apply unit draw xs = .ok x ∧ function.apply unit draw ys = .ok y ∧
      (x == y) = true
  append (unit : AngleUnit) (draw : Float) {xs ys : List Float} : xs ≠ [] → ys ≠ [] →
    ∃ x y z w, function.apply unit draw xs = .ok x ∧ function.apply unit draw ys = .ok y ∧
      function.apply unit draw [x, y] = .ok z ∧ function.apply unit draw (xs ++ ys) = .ok w ∧
      (w == z) = true

theorem takesExtremum_of_foldl {function : Builtin} {before : Float → Float → Prop}
    {key : Float → Int} {limit : Float} (hlast : IsLast key limit)
    (hvalue : ∀ unit draw {xs : List Float}, xs ≠ [] →
      function.apply unit draw xs = .ok (xs.foldl (better key) limit))
    (hbefore : ∀ {x y}, isNaN x = false → isNaN y = false → key x ≤ key y → before x y)
    (hequal : ∀ {x y}, isNaN x = false → isNaN y = false → key x = key y → (x == y) = true) :
    function.TakesExtremum before limit where
  extremum := by
    intro unit draw xs hxs
    exact ⟨_, hvalue unit draw hxs, (isExtremum_foldl hlast xs).imp hbefore⟩
  perm := by
    intro unit draw xs ys hxs hperm
    have hys : ys ≠ [] := by
      rintro rfl
      exact hxs hperm.eq_nil
    have hx := isExtremum_foldl hlast xs
    have hy := isExtremum_foldl hlast ys
    exact ⟨_, _, hvalue unit draw hxs, hvalue unit draw hys,
      hequal (hx.isNaN_eq_false hlast) (hy.isNaN_eq_false hlast) ((hx.perm hperm).key_eq hy)⟩
  append := by
    intro unit draw xs ys hxs hys
    have hx := isExtremum_foldl hlast xs
    have hy := isExtremum_foldl hlast ys
    have hz := isExtremum_foldl hlast [xs.foldl (better key) limit, ys.foldl (better key) limit]
    have hw := isExtremum_foldl hlast (xs ++ ys)
    refine ⟨_, _, _, _, hvalue unit draw hxs, hvalue unit draw hys, hvalue unit draw ?_,
      hvalue unit draw ?_, hequal (hw.isNaN_eq_false hlast) (hz.isNaN_eq_false hlast) ?_⟩
    · exact List.cons_ne_nil _ _
    · exact List.append_ne_nil_of_left_ne_nil hxs ys
    · exact hw.key_eq (IsExtremum.append hlast hx hy hz)

theorem apply_min (unit : AngleUnit) (draw : Float) {xs : List Float} (h : xs ≠ []) :
    min.apply unit draw xs = .ok (xs.foldl (better rank) positiveInfinity) := by
  cases xs with
  | nil => exact absurd rfl h
  | cons x xs => rfl

theorem apply_max (unit : AngleUnit) (draw : Float) {xs : List Float} (h : xs ≠ []) :
    max.apply unit draw xs =
      .ok (xs.foldl (better fun x => -rank x) negativeInfinity) := by
  cases xs with
  | nil => exact absurd rfl h
  | cons x xs =>
      rw [← greater_eq_better]
      rfl

/-- Of several numbers `min` takes the least and `max` the greatest, whatever their order. -/
theorem takesExtremum_min_max :
    min.TakesExtremum (fun x y => x ≤ y) positiveInfinity ∧
      max.TakesExtremum (fun x y => y ≤ x) negativeInfinity := by
  constructor
  · apply takesExtremum_of_foldl isLast_positiveInfinity apply_min
    · intro x y hx hy hle
      exact (le_iff_rank_le hx hy).mpr hle
    · intro x y hx hy heq
      exact (beq_iff_rank_eq hx hy).mpr heq
  · apply takesExtremum_of_foldl isLast_negativeInfinity apply_max
    · intro x y hx hy hle
      exact (le_iff_rank_le hy hx).mpr (neg_le_neg_iff.mp hle)
    · intro x y hx hy heq
      exact (beq_iff_rank_eq hx hy).mpr (neg_inj.mp heq)

theorem takesExtremum_min_max_of_zeros :
    min.apply .degrees 0 [0, 0 / 0, -0] = .ok 0 ∧
      min.apply .degrees 0 [-0, 0 / 0, 0] = .ok (-0) ∧
      ∃ x y, min.apply .degrees 0 [0, 0 / 0, -0] = .ok x ∧
        min.apply .degrees 0 [-0, 0 / 0, 0] = .ok y ∧ (x == y) = true := by
  refine ⟨Sequencing.eq_ok_of_toOption (by decide +kernel),
    Sequencing.eq_ok_of_toOption (by decide +kernel), ?_⟩
  exact takesExtremum_min_max.1.perm .degrees 0 (List.cons_ne_nil _ _)
    (List.reverse_perm [-0, 0 / 0, 0])

end Builtin
end Calculator
