import Meadow.Poly.Basic

set_option autoImplicit false

/-!
# Tokens

An expression is written with parentheses, five binary operators, and operands,
which are variables and decimal numbers.
-/

namespace Meadow

/-- A binary operator; all of them associate to the left. -/
inductive Operator where
  | equals
  | plus
  | minus
  | times
  | divide
  deriving DecidableEq, Repr

namespace Operator

def symbol : Operator → Char
  | equals => '='
  | plus => '+'
  | minus => '-'
  | times => '*'
  | divide => '/'

/-- The operator that a character stands for. -/
def ofChar? : Char → Option Operator
  | '=' => some equals
  | '+' => some plus
  | '-' => some minus
  | '*' => some times
  | '/' => some divide
  | _ => none

/-- How tightly the operator binds. -/
def precedence : Operator → Nat
  | equals => 0
  | plus | minus => 1
  | times | divide => 2

end Operator

/-- A token of an expression. -/
inductive Token where
  | leftParen
  | rightParen
  | operator (op : Operator)
  | operand (value : Poly)
  deriving DecidableEq

end Meadow
