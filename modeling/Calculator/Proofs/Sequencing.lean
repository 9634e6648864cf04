/-!
# Computations in sequence

The stages of an evaluation, the steps of a run and the tokens of an expression
are all handled one after the other, and the first error ends the sequence.
These facts say what it means for a sequence to succeed or to fail, so that later
proofs take a computation apart into its steps without opening the monad.
-/

namespace Calculator
namespace Sequencing

variable {ε ε' α β γ : Type}

theorem ok_bind (a : α) (f : α → Except ε β) : (Except.ok a >>= f) = f a := rfl

theorem error_bind (e : ε) (f : α → Except ε β) : (Except.error e >>= f) = Except.error e := rfl

theorem map_bind (x : Except ε α) (f : α → β) (g : β → Except ε γ) :
    x.map f >>= g = x >>= fun a => g (f a) := by
  cases x <;> rfl

theorem bind_map (x : Except ε α) (f : α → Except ε β) (g : β → γ) :
    (x >>= f).map g = x >>= fun a => (f a).map g := by
  cases x <;> rfl

theorem bind_eq_ok {x : Except ε α} {f : α → Except ε β} {b : β} :
    x >>= f = .ok b ↔ ∃ a, x = .ok a ∧ f a = .ok b := by
  cases x with
  | ok a =>
      rw [ok_bind]
      constructor
      · intro h
        exact ⟨a, rfl, h⟩
      · intro h
        rcases h with ⟨_, ha, h⟩
        cases ha
        exact h
  | error e =>
      rw [error_bind]
      constructor
      · intro h
        cases h
      · intro h
        rcases h with ⟨_, ha, _⟩
        cases ha

theorem bind_eq_error {x : Except ε α} {f : α → Except ε β} {e : ε} :
    x >>= f = .error e ↔ x = .error e ∨ ∃ a, x = .ok a ∧ f a = .error e := by
  cases x with
  | ok a =>
      rw [ok_bind]
      constructor
      · intro h
        exact Or.inr ⟨a, rfl, h⟩
      · intro h
        rcases h with ha | ⟨_, ha, h⟩
        · cases ha
        · cases ha
          exact h
  | error e' =>
      rw [error_bind]
      constructor
      · intro h
        cases h
        exact Or.inl rfl
      · intro h
        rcases h with h | ⟨_, ha, _⟩
        · cases h
          rfl
        · cases ha

theorem mapError_eq_ok {x : Except ε α} {f : ε → ε'} {a : α} :
    x.mapError f = .ok a ↔ x = .ok a := by
  cases x with
  | ok b =>
      constructor
      · intro h
        cases h
        rfl
      · intro h
        cases h
        rfl
  | error e =>
      constructor
      · intro h
        cases h
      · intro h
        cases h

theorem mapError_eq_error {x : Except ε α} {f : ε → ε'} {e' : ε'} :
    x.mapError f = .error e' ↔ ∃ e, x = .error e ∧ f e = e' := by
  cases x with
  | ok b =>
      constructor
      · intro h
        cases h
      · intro h
        rcases h with ⟨_, hok, _⟩
        cases hok
  | error e =>
      constructor
      · intro h
        cases h
        exact ⟨e, rfl, rfl⟩
      · intro h
        rcases h with ⟨_, herror, h⟩
        cases herror
        cases h
        rfl

theorem eq_ok_of_toOption {x : Except ε α} {a : α} (h : x.toOption = some a) : x = .ok a := by
  cases x with
  | ok b =>
      cases h
      rfl
  | error e => cases h

theorem foldlM_concat (f : β → α → Except ε β) (b : β) (as : List α) (a : α) :
    (as ++ [a]).foldlM f b = as.foldlM f b >>= fun c => f c a := by
  rw [List.foldlM_append]
  simp

/-- A sequence fails at the first step that fails where those before it have led. -/
theorem foldlM_eq_error {f : β → α → Except ε β} {b : β} {as : List α} {e : ε} :
    as.foldlM f b = .error e ↔
      ∃ before a after c, as = before ++ a :: after ∧ before.foldlM f b = .ok c ∧
        f c a = .error e := by
  induction as generalizing b with
  | nil =>
      constructor
      · intro h
        cases h
      · intro h
        rcases h with ⟨before, a, after, c, has, _⟩
        cases before <;> cases has
  | cons first rest ih =>
      rw [List.foldlM_cons, bind_eq_error]
      constructor
      · intro h
        rcases h with herror | ⟨c, hfirst, hrest⟩
        · exact ⟨[], first, rest, b, rfl, rfl, herror⟩
        · rcases ih.mp hrest with ⟨before, a, after, d, rfl, hbefore, herror⟩
          refine ⟨first :: before, a, after, d, rfl, ?_, herror⟩
          rw [List.foldlM_cons, hfirst]
          exact hbefore
      · intro h
        rcases h with ⟨before, a, after, d, has, hbefore, herror⟩
        cases before with
        | nil =>
            cases has
            cases hbefore
            exact Or.inl herror
        | cons _ before =>
            cases has
            rw [List.foldlM_cons] at hbefore
            rcases bind_eq_ok.mp hbefore with ⟨c, hfirst, hrest⟩
            exact Or.inr ⟨c, hfirst, ih.mpr ⟨before, a, after, d, rfl, hrest, herror⟩⟩

/-! ## Computations that go the same way -/

/-- Two computations that fail with the same error, or both succeed with related results. -/
def Agree (R : α → β → Prop) : Except ε α → Except ε β → Prop
  | .ok a, .ok b => R a b
  | .error e, .error e' => e = e'
  | _, _ => False

theorem Agree.eq {x y : Except ε α} (h : Agree (fun a b => a = b) x y) : x = y := by
  cases x with
  | ok a =>
      cases y with
      | ok b => exact congrArg Except.ok h
      | error e => exact h.elim
  | error e =>
      cases y with
      | ok b => exact h.elim
      | error e' => exact congrArg Except.error h

theorem Agree.bind {R : α → β → Prop} {α' β' : Type} {S : α' → β' → Prop} {x : Except ε α}
    {y : Except ε β} {f : α → Except ε α'} {g : β → Except ε β'} (h : Agree R x y)
    (hnext : ∀ a b, x = .ok a → y = .ok b → R a b → Agree S (f a) (g b)) :
    Agree S (x >>= f) (y >>= g) := by
  cases x with
  | ok a =>
      cases y with
      | ok b => exact hnext a b rfl rfl h
      | error e => exact h.elim
  | error e =>
      cases y with
      | ok b => exact h.elim
      | error e' => exact h

end Sequencing
end Calculator
