import Calculator.Program
import Calculator.Token

/-!
# Records

An evaluation gives an account of itself: what each stage made of the expression, what each
instruction computed, and the value that was left.
-/

namespace Calculator

inductive Record where
  | tokenized (source : String) (tokens : List Token)
  | arranged (program : Program)
  | computed (instruction : Instruction) (value : Float)
  | finished (value : Float)
  deriving Repr

namespace Record

def level : Record → String
  | computed _ _ => "TRACE"
  | tokenized _ _ | arranged _ | finished _ => "DEBUG"

/-- An expression between quotation marks, with tabs and line ends as escapes. -/
def quoted (source : String) : String :=
  let escape (c : Char) : List Char :=
    match c with
    | '\t' => ['\\', 't']
    | '\n' => ['\\', 'n']
    | c => [c]
  "\"" ++ String.ofList (source.toList.flatMap escape) ++ "\""

def message : Record → String
  | tokenized source tokens => s!"tokenized {quoted source} into {Token.listingAll tokens}"
  | arranged program => s!"rpn: {program.text}"
  | computed instruction value => s!"{instruction.text} -> {NumberText.exactText value}"
  | finished value => s!"result: {NumberText.exactText value}"

def line (entry : Record) : String × String :=
  (entry.level, entry.message)

def ofStep (step : Instruction × Float) : Record :=
  computed step.1 step.2

/-- Only a result that is a value is recorded. -/
def ofResult {ε : Type} : Except ε Float → List Record
  | .ok value => [finished value]
  | .error _ => []

end Record
end Calculator
