/-!
# Arities

How many arguments a function takes: a fixed number, or a least one.
-/

namespace Calculator

inductive Arity where
  | exactly (count : Nat)
  | atLeast (count : Nat)
  deriving Repr, DecidableEq

namespace Arity

def accepts (arity : Arity) (count : Nat) : Bool :=
  match arity with
  | exactly n => count = n
  | atLeast n => n ≤ count

def noun (count : Nat) : String :=
  if count = 1 then "argument" else "arguments"

def description : Arity → String
  | exactly n => s!"{n} {noun n}"
  | atLeast n => s!"at least {n} {noun n}"

end Arity
end Calculator
