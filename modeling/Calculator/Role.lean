import Calculator.Constant
import Calculator.Program
import Calculator.Token

/-!
# Roles of tokens

What a token means depends on what directly follows it in one case only: a name
in front of an opening parenthesis opens a call, unless it names a constant.
`roles` settles this, so that the tokens can then be arranged one at a time.
-/

namespace Calculator

inductive Role where
  /-- A number, a constant, or a name that is called nowhere. -/
  | operand (instruction : Instruction)
  | openGroup
  | openCall (function : String)
  | close
  | comma
  | operator (symbol : Char)
  | suffix (symbol : Char)
  | blank
  deriving Repr

namespace Role

/-- The role of a name, given the roles of the tokens behind it, and these roles. -/
def attachName (name : String) (rest : List Role) : List Role :=
  match Constant.named? name, rest with
  | some constant, rest => operand (.number constant.value) :: rest
  | none, openGroup :: rest => openCall name :: rest
  | none, rest => operand (.name name) :: rest

def attach (token : Token) (rest : List Role) : List Role :=
  match token with
  | .number value => operand (.number value) :: rest
  | .operator symbol => operator symbol :: rest
  | .suffix symbol => suffix symbol :: rest
  | .openParen => openGroup :: rest
  | .closeParen => close :: rest
  | .comma => comma :: rest
  | .name text => attachName text rest
  | .blank => blank :: rest

def ofTokens (tokens : List Token) : List Role :=
  tokens.foldr attach []

theorem ofTokens_nil : ofTokens [] = [] := rfl

theorem ofTokens_cons (token : Token) (tokens : List Token) :
    ofTokens (token :: tokens) = attach token (ofTokens tokens) := rfl

end Role
end Calculator
