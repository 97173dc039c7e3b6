import Meadow.Poly.Basic

set_option autoImplicit false

/-!
# Kronecker's substitution

Putting powers of a single variable for the variables of a polynomial makes it a
polynomial in one variable.  The weights are chosen as the place values of a mixed
radix, one place per variable with the degree plus one as its radix, so that no two
monomials of the polynomial or of a divisor meet, and the image can be read back.
-/

namespace Meadow

/-- A place of the mixed radix. -/
structure Place where
  var : String
  weight : Nat
  radix : Nat
  deriving DecidableEq, Repr

/-- A substitution of powers of one variable for several variables. -/
structure Kronecker where
  places : List Place
  span : Nat

namespace Kronecker

/-- Images of a larger degree are not factored. -/
def degreeLimit : Nat := 1024

/-- The variable of the images. -/
def imageVar : String := "t"

/-- The places of variables with given degrees, from a weight on. -/
def placesFrom (weight : Nat) : List (String × Nat) → List Place
  | [] => []
  | (v, d) :: rest => ⟨v, weight, d + 1⟩ :: placesFrom (weight * (d + 1)) rest

/-- The substitution for a polynomial and its divisors, unless the degree of the
image could pass the limit. -/
def ofPoly? (p : Poly) : Option Kronecker :=
  let degrees := p.degrees
  if degrees.divisorCount > degreeLimit + 1 then none
  else some ⟨placesFrom 1 degrees.powers, degrees.divisorCount⟩

/-- The power of the image variable that a monomial becomes. -/
def weigh (k : Kronecker) (m : Monomial) : Nat :=
  k.places.foldr (fun place n => m.exponent place.var * place.weight + n) 0

/-- The image of a polynomial. -/
def image (k : Kronecker) (p : Poly) : Poly :=
  Poly.ofTerms (p.terms.map fun t => (.power imageVar (k.weigh t.1), t.2))

/-- The monomial that a power of the image variable comes from. -/
def unweigh (k : Kronecker) (e : Nat) : Monomial :=
  k.places.foldr (fun place m => (Monomial.power place.var (e / place.weight % place.radix)).mul m)
    .one

/-- The polynomial that an image comes from; nothing if some power is outside the
span. -/
def preimage? (k : Kronecker) (image : Poly) : Option Poly :=
  if image.terms.all fun t => decide (t.1.exponent imageVar < k.span) then
    some (Poly.ofTerms (image.terms.map fun t => (k.unweigh (t.1.exponent imageVar), t.2)))
  else none

end Kronecker
end Meadow
