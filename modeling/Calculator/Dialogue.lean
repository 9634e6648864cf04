import Calculator.Session
import Calculator.WhiteSpace

/-!
# The dialogue

The calculator answers lines of input.  A line that starts with a colon is a
command, a line of white space is skipped, and any other line is an expression.
Each line gets a reply: what is printed, the session after it, and whether the
dialogue goes on.  A prompt stands before every line that is read.
-/

namespace Calculator

/-! ## Lines -/

inductive Command where
  | setUnit (unit : AngleUnit)
  | clearMemory
  | recallMemory
  | addToMemory
  | subtractFromMemory
  | storeMemory
  | showHistory
  | clearHistory
  | listFunctions
  | quit
  | unknown (text : String)
  deriving Repr, DecidableEq

inductive Line where
  | blank
  | command (command : Command)
  | expression (text : String)
  deriving Repr, DecidableEq

def Command.read (text : String) : Command :=
  match AngleUnit.read text with
  | .ok unit => setUnit unit
  | .error _ =>
      match text with
      | "mc" => clearMemory
      | "mr" => recallMemory
      | "m+" => addToMemory
      | "m-" => subtractFromMemory
      | "ms" => storeMemory
      | "history" => showHistory
      | "clear" => clearHistory
      | "functions" => listFunctions
      | "quit" | "q" => quit
      | other => unknown other

def Line.read (text : String) : Line :=
  match WhiteSpace.trim text.toList with
  | [] => blank
  | ':' :: rest => command (.read (String.ofList (WhiteSpace.trim rest)))
  | cs => expression (String.ofList cs)

namespace Dialogue

/-! ## Replies -/

/-- A line, with the random numbers for the evaluation that it may ask for. -/
structure Input where
  text : String
  draws : Draws := default

structure Reply where
  output : String
  session : Session
  ended : Bool := false

def prompt (s : Session) : String :=
  s!"[{s.unit.label}] > "

/-- What is printed, with the prompt for the next line if there is to be one. -/
def Reply.text (r : Reply) : String :=
  if r.ended then r.output else r.output ++ prompt r.session

def entryLine (entry : Entry) : String :=
  s!"{entry.expression} = {NumberText.resultText entry.value}\n"

def proposals : List String :=
  ["deg", "rad", "mc", "mr", "m+", "m-", "ms", "history", "clear", "functions", "quit"]

def unknownCommand (text : String) : String :=
  s!"Unknown command ':{text}'. Try " ++ " ".intercalate (proposals.map (":" ++ ·)) ++ "\n"

def replyToCommand (s : Session) : Command → Reply
  | .setUnit unit => ⟨"", s.after { action := .setUnit unit }, false⟩
  | .clearMemory => ⟨"", s.after { action := .clearMemory }, false⟩
  | .recallMemory => ⟨s!"M = {NumberText.resultText s.memory}\n", s, false⟩
  | .addToMemory => ⟨"", s.after { action := .addToMemory s.answer }, false⟩
  | .subtractFromMemory => ⟨"", s.after { action := .subtractFromMemory s.answer }, false⟩
  | .storeMemory => ⟨"", s.after { action := .storeMemory s.answer }, false⟩
  | .showHistory => ⟨String.join (s.history.reverse.map entryLine), s, false⟩
  | .clearHistory => ⟨"", s.after { action := .clearHistory }, false⟩
  | .listFunctions => ⟨" ".intercalate (Builtin.all.map Builtin.name) ++ "\n", s, false⟩
  | .quit => ⟨"", s, true⟩
  | .unknown text => ⟨unknownCommand text, s, false⟩

def replyToExpression (s : Session) (draws : Draws) (text : String) : Reply :=
  match s.evaluate draws text with
  | (.ok value, after) => ⟨s!"= {NumberText.resultText value}\n", after, false⟩
  | (.error failure, after) => ⟨s!"{failure.report}\n", after, false⟩

def reply (s : Session) (input : Input) : Reply :=
  match Line.read input.text with
  | .blank => ⟨"", s, false⟩
  | .command command => replyToCommand s command
  | .expression text => replyToExpression s input.draws text

/-! ## Transcripts -/

/--
Answers lines up to the one that ends the dialogue.  Returns what has been printed, behind
what was printed before, and the last session.
-/
def converseAfter (printed : String) (s : Session) : List Input → String × Session
  | [] => (printed, s)
  | input :: rest =>
      let r := reply s input
      if r.ended then (printed ++ r.text, r.session)
      else converseAfter (printed ++ r.text) r.session rest

def converse (s : Session) (inputs : List Input) : String × Session :=
  converseAfter (prompt s) s inputs

def transcript (s : Session) (inputs : List Input) : String :=
  (converse s inputs).1

end Dialogue
end Calculator
