import Calculator.NumberText

/-!
# Tokens

The tokens of an expression in the order in which they were typed.  Negation is
not a token of its own: every `-` is an operator symbol here.
-/

namespace Calculator

inductive Token where
  | number (value : Float)
  /-- A symbol that stands between operands, or before one. -/
  | operator (symbol : Char)
  /-- A symbol that stands behind its operand. -/
  | suffix (symbol : Char)
  | openParen
  | closeParen
  | comma
  | name (text : String)
  /-- White space, which stands for nothing. -/
  | blank
  deriving Repr, DecidableEq

namespace Token

/-! ## Single characters -/

def ofSymbol? : Char → Option Token
  | '(' => some openParen
  | ')' => some closeParen
  | ',' => some comma
  | '!' => some (suffix '!')
  | '+' => some (operator '+')
  | '-' => some (operator '-')
  | '*' => some (operator '*')
  | '/' => some (operator '/')
  | '%' => some (operator '%')
  | '^' => some (operator '^')
  | _ => none

/-! ## Listing -/

def listing : Token → String
  | number value => s!"Number({NumberText.literalText value})"
  | operator symbol => s!"Operator('{symbol}')"
  | suffix symbol => s!"Postfix('{symbol}')"
  | openParen => "LParen"
  | closeParen => "RParen"
  | comma => "Comma"
  | name text => s!"Identifier(\"{text}\")"
  | blank => "Ignored"

def listingAll (tokens : List Token) : String :=
  "[" ++ ", ".intercalate (tokens.map listing) ++ "]"

end Token
end Calculator
