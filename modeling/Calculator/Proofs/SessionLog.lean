import Calculator.Session
import Calculator.Proofs.Surroundings
import Mathlib.Data.List.Induction

/-!
# Sessions and their logs

The log of a session lists its actions with what each returned.  Everything that a
session shows can be read off the log: the history is made of the evaluations that
succeeded since it was last cleared, the answer and the unit come from the latest
action that set them, and the memory depends on the actions on it alone.

A log only ever gets longer, so `Shows` says how a session and its log agree,
`follows_after` what one more action does to both, and `afterAll_shows_log` that they
agree after any number of actions.  A session that had a history before its log began
goes on with it: `history_afterAll`.
-/

namespace Calculator

theorem isFinite_of_evaluate {environment : Environment} {source : String} {value : Float}
    (h : evaluate environment source = .ok value) : Double.isFinite value = true := by
  rcases evaluate_eq_ok.mp h with ⟨tokens, program, _, _, hvalue⟩
  exact (Program.evaluate_eq_ok.mp hvalue).2

namespace Session

def fresh : Session where
  unit := .radians
  answer := 0
  memory := 0
  history := []

/-!
## Logs

What a session shows is read off its log by folds that look at one entry at a time: what it
adds to the history, which answer or unit it sets, and what it makes of the memory.
-/

structure Logged where
  action : Action
  result : Option (Except Failure Float)

/-- The actions in the order in which they are performed. -/
def log (s : Session) : List Step → List Logged
  | [] => []
  | step :: rest => ⟨step.action, (s.perform step).1⟩ :: (s.after step).log rest

namespace Logged

def entry? : Logged → Option Entry
  | ⟨.evaluate expression, some (.ok value)⟩ => some ⟨expression, value⟩
  | _ => none

def answer? : Logged → Option Float
  | ⟨.evaluate _, some (.ok value)⟩ | ⟨.setAnswer value, _⟩ => some value
  | _ => none

def unit? : Logged → Option AngleUnit
  | ⟨.setUnit unit, _⟩ => some unit
  | _ => none

def clearsHistory : Logged → Bool
  | ⟨.clearHistory, _⟩ => true
  | _ => false

def onMemory? : Logged → Option (Float → Float)
  | ⟨.storeMemory value, _⟩ => some fun _ => value
  | ⟨.addToMemory value, _⟩ => some fun memory => memory + value
  | ⟨.subtractFromMemory value, _⟩ => some fun memory => memory - value
  | ⟨.clearMemory, _⟩ => some fun _ => 0
  | _ => none

end Logged

/-- The evaluations that succeeded since the history was last cleared, latest first. -/
def successes (log : List Logged) : List Entry :=
  (log.reverse.takeWhile fun logged => !logged.clearsHistory).filterMap Logged.entry?

def lastAnswer? (log : List Logged) : Option Float :=
  log.reverse.findSome? Logged.answer?

def lastUnit? (log : List Logged) : Option AngleUnit :=
  log.reverse.findSome? Logged.unit?

/-- What the actions on the memory, first to last, make of a memory of zero. -/
def memoryOf (log : List Logged) : Float :=
  (log.filterMap Logged.onMemory?).foldl (fun memory change => change memory) 0

/-! ## One more entry -/

section
variable (logged : List Logged) (next : Logged)

theorem successes_concat :
    successes (logged ++ [next]) =
      if next.clearsHistory then [] else next.entry?.toList ++ successes logged := by
  unfold successes
  rw [List.reverse_concat, List.takeWhile_cons]
  cases hclears : next.clearsHistory with
  | true => rfl
  | false =>
      show List.filterMap Logged.entry? (next :: _) = _
      rw [List.filterMap_cons]
      cases next.entry? <;> rfl

theorem lastAnswer?_concat :
    lastAnswer? (logged ++ [next]) = next.answer?.or (lastAnswer? logged) := by
  unfold lastAnswer?
  rw [List.reverse_concat, List.findSome?_cons]
  cases next.answer? <;> rfl

theorem lastUnit?_concat :
    lastUnit? (logged ++ [next]) = next.unit?.or (lastUnit? logged) := by
  unfold lastUnit?
  rw [List.reverse_concat, List.findSome?_cons]
  cases next.unit? <;> rfl

theorem memoryOf_concat :
    memoryOf (logged ++ [next]) = (next.onMemory?.getD id) (memoryOf logged) := by
  unfold memoryOf
  rw [List.filterMap_append, List.foldl_append, List.filterMap_cons]
  cases next.onMemory? <;> rfl

end

/-! ## One more step -/

/-- The second session comes from the first one by an action that was logged. -/
structure Follows (s : Session) (next : Logged) (s' : Session) : Prop where
  history : s'.history =
    if next.clearsHistory then []
    else match next.entry? with
      | some entry => (entry :: s.history).take historyLimit
      | none => s.history
  finite : ∀ entry, next.entry? = some entry → Double.isFinite entry.value = true
  answer : s'.answer = next.answer?.getD s.answer
  unit : s'.unit = next.unit?.getD s.unit
  memory : s'.memory = (next.onMemory?.getD id) s.memory

section
variable {s : Session} {draws : Draws} {expression : String}

theorem evaluate_ok {value : Float} (h : s.preview draws expression = .ok value) :
    s.evaluate draws expression = (.ok value, s.record expression value) := by
  rw [evaluate, h]

theorem evaluate_error {failure : Failure} (h : s.preview draws expression = .error failure) :
    s.evaluate draws expression = (.error failure, s) := by
  rw [evaluate, h]

theorem evaluate_fst (s : Session) (draws : Draws) (expression : String) :
    (s.evaluate draws expression).1 = s.preview draws expression := by
  cases hpreview : s.preview draws expression with
  | ok value => rw [evaluate_ok hpreview]
  | error failure => rw [evaluate_error hpreview]

theorem after_evaluate_ok {value : Float} (h : s.preview draws expression = .ok value) :
    s.after ⟨.evaluate expression, draws⟩ = s.record expression value :=
  congrArg Prod.snd (evaluate_ok h)

end

theorem follows_after (s : Session) (step : Step) :
    s.Follows ⟨step.action, (s.perform step).1⟩ (s.after step) := by
  rcases step with ⟨action, draws⟩
  cases action with
  | evaluate expression =>
      show s.Follows ⟨_, some (s.evaluate draws expression).1⟩ (s.evaluate draws expression).2
      cases hpreview : s.preview draws expression with
      | ok value =>
          rw [evaluate_ok hpreview]
          refine ⟨rfl, ?_, rfl, rfl, rfl⟩
          intro entry hentry
          cases hentry
          exact isFinite_of_evaluate hpreview
      | error failure =>
          rw [evaluate_error hpreview]
          exact ⟨rfl, nofun, rfl, rfl, rfl⟩
  | preview | setUnit | setAnswer | storeMemory | addToMemory | subtractFromMemory
  | clearMemory | clearHistory => exact ⟨rfl, nofun, rfl, rfl, rfl⟩

/-! ## Any number of steps -/

structure Shows (s : Session) (log : List Logged) : Prop where
  history : s.history = (successes log).take 200
  finite : ∀ entry ∈ s.history, Double.isFinite entry.value = true
  answer : s.answer = (lastAnswer? log).getD 0
  unit : s.unit = (lastUnit? log).getD .radians
  memory : s.memory = memoryOf log

theorem take_cons_take (entry : Entry) (entries : List Entry) :
    (entry :: entries.take historyLimit).take historyLimit =
      (entry :: entries).take historyLimit := by
  rw [historyLimit, List.take_succ_cons, List.take_succ_cons, List.take_take]
  rfl

theorem fresh_shows_nil : fresh.Shows [] :=
  ⟨rfl, nofun, rfl, rfl, rfl⟩

theorem Shows.concat {s s' : Session} {log : List Logged} {next : Logged} (h : s.Shows log)
    (hnext : s.Follows next s') : s'.Shows (log ++ [next]) where
  history := by
    rw [hnext.history, successes_concat, h.history]
    cases next.clearsHistory with
    | true => rfl
    | false =>
        cases next.entry? with
        | none => rfl
        | some entry =>
            exact take_cons_take entry (successes log)
  finite := by
    intro entry hentry
    rw [hnext.history] at hentry
    split at hentry
    · cases hentry
    · split at hentry
      · rename_i new hnew
        rcases List.mem_cons.mp (List.mem_of_mem_take hentry) with hfirst | hold
        · rw [hfirst]
          exact hnext.finite new hnew
        · exact h.finite entry hold
      · exact h.finite entry hentry
  answer := by
    rw [hnext.answer, lastAnswer?_concat, h.answer, Option.getD_or]
  unit := by
    rw [hnext.unit, lastUnit?_concat, h.unit, Option.getD_or]
  memory := by
    rw [hnext.memory, memoryOf_concat, h.memory]

theorem log_concat (s : Session) (steps : List Step) (step : Step) :
    s.log (steps ++ [step]) =
      s.log steps ++ [⟨step.action, ((s.afterAll steps).perform step).1⟩] := by
  induction steps generalizing s with
  | nil => rfl
  | cons first rest ih =>
      show _ :: (s.after first).log (rest ++ [step]) = _
      rw [ih (s.after first)]
      rfl

/-- After any steps, a session that began afresh shows what its log says. -/
theorem afterAll_shows_log (steps : List Step) :
    (fresh.afterAll steps).Shows (fresh.log steps) := by
  induction steps using List.reverseRecOn with
  | nil => exact fresh_shows_nil
  | append_singleton earlier step ih =>
      rw [log_concat, afterAll_append]
      exact ih.concat (follows_after _ step)

/-! ## Histories that were begun before -/

def kept (s : Session) (log : List Logged) : List Entry :=
  successes log ++ if log.any Logged.clearsHistory then [] else s.history

theorem kept_concat (s : Session) (log : List Logged) (next : Logged) :
    s.kept (log ++ [next]) =
      if next.clearsHistory then [] else next.entry?.toList ++ s.kept log := by
  unfold kept
  rw [successes_concat, List.any_append, List.any_cons, List.any_nil, Bool.or_false]
  cases next.clearsHistory with
  | true => simp
  | false => simp

theorem history_afterAll (s : Session) (steps : List Step) :
    (s.afterAll steps).history = (s.kept (s.log steps)).take historyLimit := by
  induction steps using List.reverseRecOn with
  | nil => exact (List.take_of_length_le s.bounded).symm
  | append_singleton earlier step ih =>
      have hnext := (follows_after (s.afterAll earlier) step).history
      rw [afterAll_append, log_concat, kept_concat]
      show ((s.afterAll earlier).after step).history = _
      rw [hnext]
      cases Logged.clearsHistory ⟨step.action, ((s.afterAll earlier).perform step).1⟩ with
      | true => rfl
      | false =>
          cases Logged.entry? ⟨step.action, ((s.afterAll earlier).perform step).1⟩ with
          | none => exact ih
          | some entry =>
              show (entry :: (s.afterAll earlier).history).take historyLimit = _
              rw [ih]
              exact take_cons_take entry (s.kept (s.log earlier))

end Session
end Calculator
