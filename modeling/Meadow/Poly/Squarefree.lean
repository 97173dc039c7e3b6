import Meadow.Poly.Gcd

set_option autoImplicit false

/-!
# Squarefree decomposition

A polynomial that is primitive over a variable is, up to a rational, the product
of powers of pairwise coprime squarefree parts, one part for each multiplicity.
Yun's method finds them from the polynomial and its derivative by greatest common
divisors: after `k` rounds `b` is the product of the parts of multiplicity above
`k`, and the next common divisor with `d` is the part of multiplicity `k + 1`.
-/

namespace Meadow.Poly

/-- The parts from multiplicity `k` on, where `b` is their product and `d`
belongs to it.  A round that does not divide exactly, or one too many, gives up
and leaves the rest whole. -/
def squarefreeRounds (v : String) : Nat → Nat → Poly → Poly → List (Poly × Nat)
  | 0, k, b, _ => if b.degreeIn v = 0 then [] else [(b, k)]
  | rounds + 1, k, b, d =>
    if b.degreeIn v = 0 then []
    else
      let a := gcd b d
      let part := if a.degreeIn v = 0 then [] else [(a, k)]
      match b.divExact? a, d.divExact? a with
      | some b', some c' =>
        part ++ squarefreeRounds v rounds (k + 1) b' (c'.sub (b'.derivative v))
      | _, _ => part ++ [(b, k)]

/-- The squarefree parts of a polynomial that is primitive over a variable, each
with its multiplicity. -/
def squarefreeParts (p : Poly) (v : String) : List (Poly × Nat) :=
  let p' := p.derivative v
  let a := gcd p p'
  match p.divExact? a, p'.divExact? a with
  | some b, some c => squarefreeRounds v (p.degreeIn v + 1) 1 b (c.sub (b.derivative v))
  | _, _ => [(p, 1)]

end Meadow.Poly
