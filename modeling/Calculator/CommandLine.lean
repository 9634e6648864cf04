import Calculator.Dialogue

/-!
# The command line

The arguments choose the unit of angles and the previous answer and may give one
expression.  Options stand before or after the expression, and `--` ends them.
With an expression, its result or its failure is printed; without one, the input
is answered line by line.
-/

namespace Calculator
namespace CommandLine

/-! ## Options -/

structure Options where
  degrees : Bool := false
  answer : Option Float := none
  expression : Option String := none

namespace Options

def setDegrees (o : Options) : Option Options :=
  if o.degrees then none else some { o with degrees := true }

def setAnswer (o : Options) (text : String) : Option Options :=
  match o.answer, Numeral.read? text with
  | none, some value => some { o with answer := value }
  | _, _ => none

def setExpression (o : Options) (text : String) : Option Options :=
  match o.expression with
  | none => some { o with expression := text }
  | some _ => none

end Options

/-! ## Shapes of arguments -/

inductive Argument where
  /-- The end of the options. -/
  | separator
  /-- A long name, and the text behind its equals sign. -/
  | long (name : String) (value : Option String)
  /-- One or more letters behind a single dash. -/
  | short (letters : List Char)
  | plain
  deriving Repr, DecidableEq

def Argument.ofLong (cs : List Char) : Argument :=
  match cs.dropWhile (· ≠ '=') with
  | '=' :: value => long (String.ofList (cs.takeWhile (· ≠ '='))) (String.ofList value)
  | _ => long (String.ofList cs) none

def Argument.classify (text : String) : Argument :=
  match text.toList with
  | ['-', '-'] => separator
  | '-' :: '-' :: rest => ofLong rest
  | '-' :: c :: rest => short (c :: rest)
  | _ => plain

/--
Whether letters behind a dash are a negative number: digits, with a point that is
neither first nor in the exponent, and one exponent mark that is neither first nor
last.  The exponent has no sign.
-/
def isNegativeNumber (letters : List Char) : Bool :=
  let isDigits (cs : List Char) : Bool := cs.all Char.isDigit
  let mantissa := letters.takeWhile (!Exponent.isMark ·)
  let whole := mantissa.takeWhile (· ≠ '.')
  isDigits whole &&
    (match mantissa.dropWhile (· ≠ '.') with
      | [] => true
      | _ :: fraction => !whole.isEmpty && isDigits fraction) &&
    (match letters.dropWhile (!Exponent.isMark ·) with
      | [] => true
      | _ :: exponent => !mantissa.isEmpty && !exponent.isEmpty && isDigits exponent)

def isValue (text : String) : Bool :=
  match Argument.classify text with
  | .plain => true
  | .short letters => isNegativeNumber letters
  | .long _ _ | .separator => false

/-! ## Reading -/

/-- The options in a cluster of letters, and whether the last one awaits a value. -/
def readCluster (o : Options) : List Char → Option (Options × Bool)
  | [] => some (o, false)
  | 'd' :: rest => o.setDegrees.bind (readCluster · rest)
  | ['a'] => some (o, true)
  | 'a' :: '=' :: value => (o.setAnswer (String.ofList value)).map (·, false)
  | 'a' :: value => (o.setAnswer (String.ofList value)).map (·, false)
  | _ => none

def readOption (o : Options) (text : String) : Option (Options × Bool) :=
  match Argument.classify text with
  | .long "degrees" none => o.setDegrees.map (·, false)
  | .long "ans" none => some (o, true)
  | .long "ans" (some value) => (o.setAnswer value).map (·, false)
  | .short letters => readCluster o letters
  | .plain => (o.setExpression text).map (·, false)
  | .long _ _ | .separator => none

def readAll (o : Options) (awaiting : Bool) : List String → Option Options
  | [] => if awaiting then none else some o
  | text :: rest =>
      if awaiting then
        if isValue text then (o.setAnswer text).bind (readAll · false rest) else none
      else if Argument.classify text = .separator then rest.foldlM Options.setExpression o
      else (readOption o text).bind fun (o, awaiting) => readAll o awaiting rest

def read? (arguments : List String) : Option Options :=
  readAll {} false arguments

/-! ## Tasks -/

def Options.session (o : Options) : Session where
  unit := if o.degrees then .degrees else .radians
  answer := o.answer.getD 0

inductive Task where
  | refuse
  | calculate (session : Session) (expression : String)
  | converse (session : Session)

def task (arguments : List String) : Task :=
  match read? arguments with
  | none => .refuse
  | some o =>
      match o.expression with
      | some expression => .calculate o.session expression
      | none => .converse o.session

/-! ## Outcomes -/

structure Outcome where
  status : Nat
  output : String := ""
  errors : String := ""

def usage : String :=
  "Usage: calculator [-d | --degrees] [-a VALUE | --ans VALUE] [EXPRESSION]\n"

def refusal : Outcome :=
  { status := 2, errors := usage }

def calculate (s : Session) (draws : Draws) (expression : String) : Outcome :=
  match (s.evaluate draws expression).1 with
  | .ok value => { status := 0, output := NumberText.resultText value ++ "\n" }
  | .error failure => { status := 1, errors := failure.report ++ "\n" }

end CommandLine
end Calculator
