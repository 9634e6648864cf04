import Calculator.Proofs.Independence
import Calculator.Proofs.SessionLog

/-!
# Actions that leave no trace

A preview and an evaluation that fails change nothing, and the memory and the history are
never read by an evaluation.  So such actions can be taken out of a run: the actions that
are left return what they returned before.  Two sessions run side by side, the second one
without the actions that are taken out, and stay alike in what later results depend on.
The two may draw other random numbers, since no expression asks for them.
-/

namespace Calculator
namespace Session

/-! ## Sessions that are alike -/

structure AnswersAlike (s t : Session) : Prop where
  unit : s.unit = t.unit
  answer : s.answer = t.answer

theorem AnswersAlike.trans {s t u : Session} (h : AnswersAlike s t) (h' : AnswersAlike t u) :
    AnswersAlike s u :=
  ⟨h.unit.trans h'.unit, h.answer.trans h'.answer⟩

def Action.CallsRandom : Action → Prop
  | evaluate expression | preview expression => Says Calculator.CallsRandom (spellPi expression)
  | setUnit _ | setAnswer _ | storeMemory _ | addToMemory _ | subtractFromMemory _
  | clearMemory | clearHistory => False

instance : DecidablePred Action.CallsRandom
  | .evaluate expression | .preview expression =>
      inferInstanceAs (Decidable (Says Calculator.CallsRandom (spellPi expression)))
  | .setUnit _ | .setAnswer _ | .storeMemory _ | .addToMemory _ | .subtractFromMemory _
  | .clearMemory | .clearHistory => isFalse id

section

variable {s t : Session} {action : Action}

theorem AnswersAlike.preview_eq {expression : String} (h : AnswersAlike s t)
    (hrand : ¬ Says Calculator.CallsRandom (spellPi expression)) (draws draws' : Draws) :
    s.preview draws expression = t.preview draws' expression :=
  evaluate_of_not_says hrand (Or.inl h.answer) (Or.inl h.unit)

theorem perform_evaluate_fst (s : Session) (draws : Draws) (expression : String) :
    (s.perform ⟨.evaluate expression, draws⟩).1 = some (s.preview draws expression) :=
  congrArg some (evaluate_fst s draws expression)

theorem AnswersAlike.perform_fst_eq (h : AnswersAlike s t) (hrand : ¬ action.CallsRandom)
    (draws draws' : Draws) : (s.perform ⟨action, draws⟩).1 = (t.perform ⟨action, draws'⟩).1 := by
  cases action with
  | evaluate expression =>
      rw [perform_evaluate_fst, perform_evaluate_fst, h.preview_eq hrand draws draws']
  | preview expression => exact congrArg some (h.preview_eq hrand draws draws')
  | setUnit | setAnswer | storeMemory | addToMemory | subtractFromMemory | clearMemory
  | clearHistory => rfl

theorem AnswersAlike.after (h : AnswersAlike s t) (hrand : ¬ action.CallsRandom)
    (draws draws' : Draws) :
    AnswersAlike (s.after ⟨action, draws⟩) (t.after ⟨action, draws'⟩) := by
  have hs := follows_after s ⟨action, draws⟩
  have ht := follows_after t ⟨action, draws'⟩
  rw [← h.perform_fst_eq hrand draws] at ht
  constructor
  · rw [hs.unit, ht.unit, h.unit]
  · rw [hs.answer, ht.answer, h.answer]

theorem after_eq (s : Session) (hrand : ¬ action.CallsRandom) (draws draws' : Draws) :
    s.after ⟨action, draws⟩ = s.after ⟨action, draws'⟩ := by
  have hs := follows_after s ⟨action, draws⟩
  have ht := follows_after s ⟨action, draws'⟩
  rw [← AnswersAlike.perform_fst_eq ⟨rfl, rfl⟩ hrand draws] at ht
  apply Session.ext
  · rw [hs.unit, ht.unit]
  · rw [hs.answer, ht.answer]
  · rw [hs.memory, ht.memory]
  · rw [hs.history, ht.history]

end

/-!
## Actions that can be taken out

Whether an action can be taken out may depend on its result, so it is asked of the log.
-/

namespace Logged

/-- Actions that change nothing: previews, and evaluations that failed. -/
inductive IsIdle : Logged → Prop where
  | preview (expression : String) (result : Option (Except Failure Float)) :
      IsIdle ⟨.preview expression, result⟩
  | failed (expression : String) (failure : Failure) :
      IsIdle ⟨.evaluate expression, some (.error failure)⟩

/-- Actions that change nothing but the memory or the history. -/
inductive IsApart : Logged → Prop where
  | idle {logged : Logged} : logged.IsIdle → IsApart logged
  | storeMemory (value : Float) (result : Option (Except Failure Float)) :
      IsApart ⟨.storeMemory value, result⟩
  | addToMemory (value : Float) (result : Option (Except Failure Float)) :
      IsApart ⟨.addToMemory value, result⟩
  | subtractFromMemory (value : Float) (result : Option (Except Failure Float)) :
      IsApart ⟨.subtractFromMemory value, result⟩
  | clearMemory (result : Option (Except Failure Float)) : IsApart ⟨.clearMemory, result⟩
  | clearHistory (result : Option (Except Failure Float)) : IsApart ⟨.clearHistory, result⟩

end Logged

theorem Follows.eq_of_isIdle {s s' : Session} {next : Logged} (h : s.Follows next s')
    (hidle : next.IsIdle) : s' = s := by
  cases hidle <;> exact Session.ext h.unit h.answer h.memory h.history

theorem Follows.answersAlike {s s' : Session} {next : Logged} (h : s.Follows next s')
    (hapart : next.IsApart) : AnswersAlike s' s := by
  cases hapart with
  | idle hidle =>
      rw [h.eq_of_isIdle hidle]
      exact ⟨rfl, rfl⟩
  | storeMemory | addToMemory | subtractFromMemory | clearMemory | clearHistory =>
      exact ⟨h.unit, h.answer⟩

/-- The second log is the first one without some entries, all of which can be taken out. -/
inductive Prunes (removable : Logged → Prop) : List Logged → List Logged → Prop where
  | nil : Prunes removable [] []
  | keep (logged : Logged) {log kept : List Logged} :
      Prunes removable log kept → Prunes removable (logged :: log) (logged :: kept)
  | drop {logged : Logged} {log kept : List Logged} : removable logged →
      Prunes removable log kept → Prunes removable (logged :: log) kept

theorem Prunes.refl {removable : Logged → Prop} (log : List Logged) :
    Prunes removable log log := by
  induction log with
  | nil => exact .nil
  | cons logged log ih => exact .keep logged ih

theorem map_action_log (s : Session) (steps : List Step) :
    (s.log steps).map Logged.action = steps.map Step.action := by
  induction steps generalizing s with
  | nil => rfl
  | cons step steps ih => exact congrArg (step.action :: ·) (ih (s.after step))

/-! ## Runs with and without them -/

/-- A relation that keeps two sessions in step, one of which skips what can be taken out. -/
structure KeepsStep (R : Session → Session → Prop) (removable : Logged → Prop) : Prop where
  result : ∀ {s t : Session} {action : Action} (draws draws' : Draws), R s t →
    ¬ action.CallsRandom → (s.perform ⟨action, draws⟩).1 = (t.perform ⟨action, draws'⟩).1
  after : ∀ {s t : Session} {action : Action} (draws draws' : Draws), R s t →
    ¬ action.CallsRandom → R (s.after ⟨action, draws⟩) (t.after ⟨action, draws'⟩)
  skip : ∀ {s t : Session} {step : Step}, R s t →
    removable ⟨step.action, (s.perform step).1⟩ → R (s.after step) t

theorem keepsStep_eq : KeepsStep Eq Logged.IsIdle where
  result := by
    rintro s _ action draws draws' rfl hrand
    exact AnswersAlike.perform_fst_eq ⟨rfl, rfl⟩ hrand draws draws'
  after := by
    rintro s _ action draws draws' rfl hrand
    exact s.after_eq hrand draws draws'
  skip := by
    rintro s _ step rfl hidle
    exact (follows_after s step).eq_of_isIdle hidle

theorem keepsStep_answersAlike : KeepsStep AnswersAlike Logged.IsApart where
  result := fun draws draws' h hrand => h.perform_fst_eq hrand draws draws'
  after := fun draws draws' h hrand => h.after hrand draws draws'
  skip := by
    intro s t step h hapart
    exact ((follows_after s step).answersAlike hapart).trans h

theorem KeepsStep.log_eq {R : Session → Session → Prop} {removable : Logged → Prop}
    (h : KeepsStep R removable) {s t : Session} {steps others : List Step} {kept : List Logged}
    (hrelated : R s t) (hrand : ∀ step ∈ steps, ¬ step.action.CallsRandom)
    (hprunes : Prunes removable (s.log steps) kept)
    (hactions : others.map Step.action = kept.map Logged.action) :
    t.log others = kept ∧ R (s.afterAll steps) (t.afterAll others) := by
  induction steps generalizing s t others kept with
  | nil =>
      cases hprunes
      rw [List.map_nil, List.map_eq_nil_iff] at hactions
      subst hactions
      exact ⟨rfl, hrelated⟩
  | cons step steps ih =>
      rw [List.forall_mem_cons] at hrand
      cases hprunes with
      | keep _ hrest =>
          rename_i kept
          rcases List.map_eq_cons_iff.mp hactions with ⟨⟨action, draws'⟩, others, rfl, rfl, hothers⟩
          rcases ih (h.after step.draws draws' hrelated hrand.1) hrand.2 hrest hothers with
            ⟨hlog, hlast⟩
          refine ⟨?_, hlast⟩
          show (⟨step.action, (t.perform ⟨step.action, draws'⟩).1⟩ : Logged) ::
            (t.after ⟨step.action, draws'⟩).log others = _
          rw [hlog, ← h.result step.draws draws' hrelated hrand.1]
      | drop hremovable hrest => exact ih (h.skip hrelated hremovable) hrand.2 hrest hactions

/--
Taking out actions that change nothing leaves every other result and the session as they
were; taking out those on the memory and the history as well leaves every other result,
the unit and the answer; and a preview returns what an evaluation would return.
-/
theorem log_eq_of_prunes {s : Session} {steps : List Step}
    (hrand : ∀ step ∈ steps, ¬ step.action.CallsRandom) :
    (∀ kept others, Prunes Logged.IsIdle (s.log steps) kept →
      others.map Step.action = kept.map Logged.action →
        s.log others = kept ∧ s.afterAll others = s.afterAll steps) ∧
    (∀ kept others, Prunes Logged.IsApart (s.log steps) kept →
      others.map Step.action = kept.map Logged.action →
        s.log others = kept ∧ AnswersAlike (s.afterAll steps) (s.afterAll others)) ∧
    (∀ earlier expression draws later, steps = earlier ++ ⟨.preview expression, draws⟩ :: later →
      ∀ others draws', others.map Step.action = earlier.map Step.action →
        ((s.afterAll earlier).perform ⟨.preview expression, draws⟩).1 =
          ((s.afterAll others).perform ⟨.evaluate expression, draws'⟩).1) := by
  refine ⟨?_, ?_, ?_⟩
  · intro kept others hprunes hactions
    rcases keepsStep_eq.log_eq rfl hrand hprunes hactions with ⟨hlog, hlast⟩
    exact ⟨hlog, hlast.symm⟩
  · intro kept others hprunes hactions
    exact keepsStep_answersAlike.log_eq ⟨rfl, rfl⟩ hrand hprunes hactions
  · intro earlier expression draws later hsteps others draws' hactions
    subst hsteps
    rw [List.forall_mem_append, List.forall_mem_cons] at hrand
    rw [← map_action_log s earlier] at hactions
    have hsame := (keepsStep_eq.log_eq rfl hrand.1 (.refl _) hactions).2
    rw [perform_evaluate_fst, ← hsame]
    exact congrArg some (AnswersAlike.preview_eq ⟨rfl, rfl⟩ hrand.2.1 draws draws')

theorem Logged.isIdle_of_toOption {expression : String} {result : Except Failure Float}
    (h : result.toOption = none) : IsIdle ⟨.evaluate expression, some result⟩ := by
  cases result with
  | ok value => cases h
  | error failure => exact .failed expression failure

theorem log_eq_of_prunes_of_tooLarge :
    let actions : List Action :=
      [.evaluate "1+2", .preview "ans!", .evaluate "171!", .storeMemory 7, .evaluate "ans/2"]
    let steps := actions.map fun action => ⟨action, default⟩
    let others := [Action.evaluate "1+2", .evaluate "ans/2"].map fun action =>
      ⟨action, .ofStream fun _ => 0.5⟩
    (∀ step ∈ steps, ¬ step.action.CallsRandom) ∧
      ∃ kept, Prunes Logged.IsApart (fresh.log steps) kept ∧
        others.map Step.action = kept.map Logged.action ∧ fresh.log others = kept ∧
        AnswersAlike (fresh.afterAll steps) (fresh.afterAll others) := by
  intro actions steps others
  have hrand : ∀ step ∈ steps, ¬ step.action.CallsRandom := by decide +kernel
  let first := fresh.after ⟨.evaluate "1+2", default⟩
  have hfailed : (first.preview default "171!").toOption = none := by decide +kernel
  have hidle : Logged.IsIdle
      ⟨.evaluate "171!", (first.perform ⟨.evaluate "171!", default⟩).1⟩ := by
    rw [perform_evaluate_fst]
    exact Logged.isIdle_of_toOption hfailed
  have hprunes : Prunes Logged.IsApart (fresh.log steps)
      [⟨.evaluate "1+2", (fresh.perform ⟨.evaluate "1+2", default⟩).1⟩,
        ⟨.evaluate "ans/2", ((fresh.afterAll (steps.take 4)).perform
          ⟨.evaluate "ans/2", default⟩).1⟩] :=
    .keep _ (.drop (.idle (.preview _ _)) (.drop (.idle hidle) (.drop (.storeMemory 7 _)
      (.keep _ .nil))))
  exact ⟨hrand, _, hprunes, rfl, (log_eq_of_prunes hrand).2.1 _ others hprunes rfl⟩

end Session
end Calculator
