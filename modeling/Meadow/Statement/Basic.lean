import Meadow.Form.Arithmetic
import Meadow.Form.Basic

set_option autoImplicit false

/-!
# Statements

What a user writes is an equation between two values, or just a value.
-/

namespace Meadow

/-- An equation of two forms. -/
structure Equation where
  lhs : Form
  rhs : Form
  deriving DecidableEq

namespace Equation

/-- The difference of the sides, which is zero exactly where the equation holds. -/
def difference (e : Equation) : Form := e.lhs.sub e.rhs

/-- The names of the variables of both sides, in increasing order. -/
def vars (e : Equation) : List String :=
  (FinSet.union e.lhs.varSet e.rhs.varSet).toList

/-- The text of an equation. -/
def render (e : Equation) : String := e.lhs.render ++ " = " ++ e.rhs.render

end Equation

/-- An equation or a value. -/
inductive Statement where
  | equation (e : Equation)
  | value (f : Form)
  deriving DecidableEq

/-- The text of a statement. -/
def Statement.render : Statement → String
  | .equation e => e.render
  | .value f => f.render

end Meadow
