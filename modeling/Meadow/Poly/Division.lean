import Meadow.Poly.Basic

set_option autoImplicit false

/-!
# Exact division

Dividing cancels the leading term of what is left by a multiple of the divisor,
again and again.  When the divisor does divide, the leading monomials of these
multiples are the monomials of the quotient, and each of them divides the
quotient's `degrees`; so the number of divisors of that monomial bounds the
number of steps.
-/

namespace Meadow.Poly

/-- Cancel leading terms of `r` by multiples of `b`, whose leading term is
`lead`, and collect the multipliers, which must all divide `box`. -/
def cancelLeading (b : Poly) (lead : Monomial × Rat) (box : Monomial) : Nat → Poly → Option Poly
  | 0, r => if r.isZero then some zero else none
  | steps + 1, r =>
    match r.leadingTerm? with
    | none => some zero
    | some t =>
      match t.1.divide? lead.1 with
      | none => none
      | some m =>
        if m.divides box then
          let c := t.2 / lead.2
          (cancelLeading b lead box steps (r.add (b.mulTerm m (-c)))).map (monomial m c).add
        else none

/-- The quotient `a / b`; nothing if `b` is zero or does not divide `a`. -/
def divExact? (a b : Poly) : Option Poly :=
  match b.leadingTerm? with
  | none => none
  | some lead =>
    if a.isZero then some zero
    else
      match a.degrees.divide? b.degrees with
      | none => none
      | some box => cancelLeading b lead box box.divisorCount a

end Meadow.Poly
