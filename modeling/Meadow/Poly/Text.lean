import Meadow.Poly.Order

set_option autoImplicit false

/-!
# The text of a polynomial

In a monomial the powers are joined by `*`, and an exponent other than one follows
its variable after `**`; the empty product has the empty text.  Terms are written by
falling total degree, and lexicographically largest first within a degree.  A
coefficient of one is left out in front of a monomial, and a negative one turns the
sign before its term.
-/

namespace Meadow

namespace Monomial

/-- The text of a variable raised to a power. -/
def renderPower (p : String × Nat) : String :=
  if p.2 = 1 then p.1 else p.1 ++ "**" ++ toString p.2

/-- The text of a monomial, such as `x**2*y`. -/
def render (m : Monomial) : String := "*".intercalate (m.powers.map renderPower)

end Monomial

/-- A rational in lowest terms: `n`, or `n/d` when it is no integer. -/
def renderRat (c : Rat) : String :=
  if c.den = 1 then toString c.num else toString c.num ++ "/" ++ toString c.den

namespace Poly

/-- The order of writing: the larger total degree first, then the
lexicographically larger monomial. -/
def writtenBefore (s t : Monomial × Rat) : Bool :=
  ((compare t.1.degree s.1.degree).then (t.1.lexCmp s.1)).isLE

/-- A term without its sign. -/
def renderMagnitude (t : Monomial × Rat) : String :=
  let c := t.2.abs
  if t.1.isOne then renderRat c
  else if c = 1 then t.1.render
  else renderRat c ++ "*" ++ t.1.render

/-- A term that others precede. -/
def renderNext (t : Monomial × Rat) : String :=
  (if t.2 < 0 then " - " else " + ") ++ renderMagnitude t

/-- The text of a polynomial, such as `x**2 + 2*x*y - 1/2`. -/
def render (p : Poly) : String :=
  match p.terms.mergeSort writtenBefore with
  | [] => "0"
  | t :: ts =>
    (if t.2 < 0 then "-" else "") ++ renderMagnitude t ++ String.join (ts.map renderNext)

end Poly
end Meadow
