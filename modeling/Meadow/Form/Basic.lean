import Meadow.FinSupp.Set
import Meadow.Poly.FactorText

set_option autoImplicit false

/-!
# Standard meadow forms

In a meadow division is total, and dividing by zero gives zero.  A value is kept in
one of three shapes: a polynomial, a quotient of polynomials, or a conditional that
is one form where its condition is not zero and another one where it is.

`Form.quotient` and `Form.branch` build the latter two and keep to the simplest
shape: no quotient by a constant, and no conditional that one branch settles.
-/

namespace Meadow

/-- A value in standard meadow form. -/
inductive Form where
  /-- A polynomial. -/
  | poly (p : Poly)
  /-- The quotient `num / den`. -/
  | frac (num den : Poly)
  /-- `nonzero` where `condition` is not zero, and `zero` where it is. -/
  | cond (condition : Poly) (nonzero zero : Form)
  deriving DecidableEq

namespace Form

def zero : Form := poly .zero

def one : Form := poly .one

instance : Inhabited Form := ⟨zero⟩

/-- The polynomial that this form is, if it is one. -/
def asPoly? : Form → Option Poly
  | poly p => some p
  | _ => none

def isZero : Form → Bool
  | poly p => p.isZero
  | _ => false

def isOne : Form → Bool
  | poly p => p.isOne
  | _ => false

def isConstant : Form → Bool
  | poly p => p.isConstant
  | _ => false

/-- The variables of all polynomials in the form. -/
def varSet : Form → FinSet String compare
  | poly p => .ofList p.vars
  | frac n d => .union (.ofList n.vars) (.ofList d.vars)
  | cond c t e => .union (.ofList c.vars) (.union t.varSet e.varSet)

/-- The names of the variables that occur, in increasing order. -/
def vars (f : Form) : List String := f.varSet.toList

/-- The quotient `num / den`: zero if either is, and a polynomial if `den` is
constant. -/
def quotient (num den : Poly) : Form :=
  if num.isZero || den.isZero then zero
  else
    match den.constantValue? with
    | some c => poly (num.scale c⁻¹)
    | none => frac num den

/-- The branch for a condition other than zero, when it is taken under that very
condition. -/
def underNonzero (c : Poly) : Form → Form
  | cond c' t e => if c' = c then t else cond c' t e
  | f => f

/-- The branch for a zero condition, when it is taken under that very condition:
the condition itself is zero there, and so is a quotient of it or by it. -/
def underZero (c : Poly) : Form → Form
  | cond c' t e => if c' = c then e else cond c' t e
  | frac n d => if n = c ∨ d = c then zero else frac n d
  | poly p => if p = c then zero else poly p

/-- A conditional on the radical of `c`, which is zero where `c` is.  It is left out
when both branches are the same or the condition is constant. -/
def branch (c : Poly) (t e : Form) : Form :=
  let c := c.radical
  let t := underNonzero c t
  let e := underZero c e
  if t = e then t
  else if c.isZero then e
  else if c.isConstant then t
  else cond c t e

end Form

/-! ## The text

A polynomial is written as its factorization in parentheses, a constant bare.  A
conditional is written as the value that it abbreviates: in a meadow `c/c` is one
where `c` is not zero and zero where it is. -/

/-- A polynomial as a part of a form. -/
def Poly.renderFactored (p : Poly) : String :=
  if p.isConstant then p.render else "(" ++ p.factorize.render ++ ")"

/-- The text of a form, such as `(((x)/(x)) * 1 + (1 - (x)/(x)) * 0)`. -/
def Form.render : Form → String
  | .poly p => p.renderFactored
  | .frac n d => "(" ++ n.renderFactored ++ " / " ++ d.renderFactored ++ ")"
  | .cond c t e =>
    let c := c.renderFactored
    "((" ++ c ++ "/" ++ c ++ ") * " ++ t.render ++ " + (1 - " ++ c ++ "/" ++ c ++ ") * " ++
      e.render ++ ")"

end Meadow
