import Meadow.Subset
import Meadow.Univariate.Hensel
import Meadow.Univariate.ModularFactor

set_option autoImplicit false

/-!
# Irreducible factors of integer polynomials

A primitive squarefree polynomial is factored modulo a prime, the factors are
lifted to a power of the prime beyond a bound for the coefficients of every
factor, and the true factors are found among the products of lifted ones: the
smallest sets of lifted factors are tried first, so what is found first has no
smaller factor inside.
-/

namespace Meadow.IntPoly

/-- Twice a bound for the coefficients of the leading coefficient times any factor
of `f`. -/
def factorBound (f : IntPoly) : Nat := 2 * f.lead.natAbs * Nat.pow 2 f.degree * f.norm

/-- The least power of `p` above a bound, as its exponent; it is found within as
many steps as the bound has binary digits. -/
def exponentAbove (p bound : Nat) : Nat → Nat → Nat → Nat
  | 0, k, _ => k
  | steps + 1, k, m => if m ≤ bound then exponentAbove p bound steps (k + 1) (m * p) else k

/-- The exponent of the first power of `p` that exceeds twice the coefficients of
all factors. -/
def liftExponent (p : Nat) (f : IntPoly) : Nat :=
  exponentAbove p f.factorBound (f.factorBound.log2 + 1) 1 p

/-- A factor of `f` found among the products of lifted factors: the factor, the
cofactor and the places of the lifted factors used. -/
structure Found where
  factor : IntPoly
  cofactor : IntPoly
  places : List Nat

/-- The candidate that the lifted factors at some places make: their product times
the leading coefficient, in balanced residues, made primitive. -/
def candidate (f : IntPoly) (m : Nat) (chosen : List IntPoly) : IntPoly :=
  primitive (chosen.foldl (fun acc g => balanced m (acc.mul g)) [f.lead])

/-- Look for a factor that is made of `size` lifted factors. -/
def findFactor? (f : IntPoly) (m : Nat) (lifted : List IntPoly) (size : Nat) : Option Found :=
  Subset.search?
    (fun places =>
      let c := candidate f m (Subset.select lifted places)
      if c.length > 1 then (f.divExact? c).map fun cofactor => ⟨c, cofactor, places⟩ else none)
    lifted.length size

/-- Take true factors off `f` while at least two sets of `size` lifted factors are
left; a factor found uses its lifted factors up, and a failure lets the size grow. -/
def recombineSteps (m : Nat) : Nat → Nat → IntPoly → List IntPoly → List IntPoly
  | 0, _, f, _ => [f]
  | steps + 1, size, f, lifted =>
    if 2 * size ≤ lifted.length then
      match findFactor? f m lifted size with
      | some found =>
        found.factor ::
          recombineSteps m steps size found.cofactor (Subset.remove lifted found.places)
      | none => recombineSteps m steps (size + 1) f lifted
    else [f]

/-- The true factors of `f` from its lifted ones.  Each step uses lifted factors up
or enlarges the sets, so there are no more steps than lifted factors. -/
def recombine (m : Nat) (f : IntPoly) (lifted : List IntPoly) : List IntPoly :=
  recombineSteps m (lifted.length + 1) 1 f lifted

/-- The irreducible factors over the integers of a squarefree polynomial, each
primitive with a positive leading coefficient.  If no prime is usable, the
polynomial stays whole. -/
def factorSquarefree (f : IntPoly) : List IntPoly :=
  let f := primitive (trim f)
  if f.length ≤ 2 then [f]
  else
    match modularFactors? f with
    | none => [f]
    | some (p, modular) =>
      if modular.length ≤ 1 then [f]
      else
        let k := liftExponent p f
        let m := p.pow k
        recombine m f (Hensel.liftAll p k (f.residues m) modular)

end Meadow.IntPoly
