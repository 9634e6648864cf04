import Calculator.Decimal.Layout
import Calculator.Decimal.Rounded
import Calculator.Decimal.Shortest
import Calculator.Double.Basic

/-!
# Numbers as text

Three texts for a double.  `exactText` is used in messages and programs and names
the double itself.  `literalText` is used where tokens are listed and keeps a
point in every number.  `resultText` is what a calculation shows: twelve places,
or eleven significant digits for very small and very large results.
-/

namespace Calculator
namespace NumberText

def signed (x : Float) (magnitude : List Char) : List Char :=
  if Double.isNegative x then '-' :: magnitude else magnitude

/-! ## Texts that name the double -/

/-- The fewest digits that read back, in their places. -/
def exactText (x : Float) : String :=
  if Double.isNaN x then "NaN"
  else if Double.isInfinite x then String.ofList (signed x ['i', 'n', 'f'])
  else String.ofList (signed x (Decimal.shortest (Double.magnitude x)).plain)

/-- Whether a literal is written without an exponent: from `10 ^ (-4)` below `10 ^ 16`. -/
def isPositionalLiteral (d : Decimal) : Bool :=
  -4 ≤ d.firstExponent && d.firstExponent < 16

def withPoint (cs : List Char) : List Char :=
  if cs.contains '.' then cs else cs ++ ['.', '0']

def literalText (x : Float) : String :=
  if Double.isNaN x then "NaN"
  else if Double.isInfinite x then String.ofList (signed x ['i', 'n', 'f'])
  else
    let d := Decimal.shortest (Double.magnitude x)
    String.ofList (signed x (if isPositionalLiteral d then withPoint d.plain else d.compact))

/-! ## Texts of a given length -/

def fixedText (x : Float) (places : Nat) : List Char :=
  signed x (Decimal.allPlaces (Decimal.toPlaces (Double.magnitude x) places).coefficient places)

def scientificText (x : Float) (places : Nat) : List Char :=
  signed x (Decimal.toSignificant (Double.magnitude x) places).scientific

def withExponentSign (cs : List Char) : List Char :=
  match cs.dropWhile (· ≠ 'e') with
  | 'e' :: exponent =>
      if exponent.head? = some '-' then cs else cs.takeWhile (· ≠ 'e') ++ 'e' :: '+' :: exponent
  | _ => cs

/-! ## The text of a result -/

/-- The least magnitude with places: the double `1e-6`. -/
def leastFixed : Nat :=
  Double.nearest 1 1000000

/-- The least larger magnitude without places: the double `1e8`. -/
def leastLarge : Nat :=
  Double.nearest 100000000 1

def isFixedMagnitude (pattern : Nat) : Bool :=
  leastFixed ≤ pattern && pattern < leastLarge

/--
A result: twelve places without the zeros at their end where that shows enough of it, and
otherwise ten places and an exponent.  Zero has no sign.
-/
def resultText (x : Float) : String :=
  if Double.isNaN x then "NaN"
  else if Double.isInfinite x then String.ofList (signed x "Infinity".toList)
  else if Double.magnitude x = 0 then "0"
  else if isFixedMagnitude (Double.magnitude x) then
    String.ofList (Digits.trimEnd '.' (Digits.trimEnd '0' (fixedText x 12)))
  else String.ofList (withExponentSign (scientificText x 10))

end NumberText
end Calculator
