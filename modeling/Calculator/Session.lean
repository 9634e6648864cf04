import Calculator.Evaluation

/-!
# Sessions

A session keeps the unit of angles, the previous answer, a memory and the latest
results between evaluations.  Only a successful evaluation changes the answer and
the history; a preview changes nothing.  `perform` takes one step, which is any action
together with the random numbers that it may draw, so that a sequence of steps is a fold.
-/

namespace Calculator

structure Entry where
  expression : String
  value : Float
  deriving Repr

def historyLimit : Nat :=
  200

@[ext]
structure Session where
  unit : AngleUnit := .radians
  answer : Float := 0
  memory : Float := 0
  /-- The latest results, newest first. -/
  history : List Entry := []
  bounded : history.length ≤ historyLimit := by exact Nat.zero_le _

namespace Session

/-! ## Evaluation -/

def environment (s : Session) (draws : Draws) : Environment :=
  ⟨s.unit, s.answer, draws⟩

/-- An expression with the letter pi written out.  Both spellings take two bytes. -/
def spellPi (expression : String) : String :=
  String.ofList (expression.toList.flatMap fun c => if c = 'π' then ['p', 'i'] else [c])

def preview (s : Session) (draws : Draws) (expression : String) : Except Failure Float :=
  Calculator.evaluate (s.environment draws) (spellPi expression)

def record (s : Session) (expression : String) (value : Float) : Session :=
  { s with
    answer := value
    history := (⟨expression, value⟩ :: s.history).take historyLimit
    bounded := List.length_take_le _ _ }

def evaluate (s : Session) (draws : Draws) (expression : String) :
    Except Failure Float × Session :=
  match s.preview draws expression with
  | .ok value => (.ok value, s.record expression value)
  | .error failure => (.error failure, s)

/-! ## Steps -/

inductive Action where
  | evaluate (expression : String)
  | preview (expression : String)
  | setUnit (unit : AngleUnit)
  | setAnswer (value : Float)
  | storeMemory (value : Float)
  | addToMemory (value : Float)
  | subtractFromMemory (value : Float)
  | clearMemory
  | clearHistory
  deriving Repr

/-- An action, with the random numbers for the evaluation that it may ask for. -/
structure Step where
  action : Action
  draws : Draws := default

def perform (s : Session) (step : Step) : Option (Except Failure Float) × Session :=
  match step.action with
  | .evaluate expression =>
      let (result, after) := s.evaluate step.draws expression
      (some result, after)
  | .preview expression => (some (s.preview step.draws expression), s)
  | .setUnit unit => (none, { s with unit })
  | .setAnswer value => (none, { s with answer := value })
  | .storeMemory value => (none, { s with memory := value })
  | .addToMemory value => (none, { s with memory := s.memory + value })
  | .subtractFromMemory value => (none, { s with memory := s.memory - value })
  | .clearMemory => (none, { s with memory := 0 })
  | .clearHistory => (none, { s with history := [], bounded := Nat.zero_le _ })

def after (s : Session) (step : Step) : Session :=
  (s.perform step).2

def afterAll (s : Session) (steps : List Step) : Session :=
  steps.foldl after s

theorem afterAll_append (s : Session) (first second : List Step) :
    s.afterAll (first ++ second) = (s.afterAll first).afterAll second :=
  List.foldl_append

end Session
end Calculator
