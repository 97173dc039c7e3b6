import Meadow.Poly.Kronecker
import Meadow.Poly.Order
import Meadow.Poly.Squarefree
import Meadow.Univariate.Factor

set_option autoImplicit false

/-!
# Factorization

A polynomial is split into its monomial content, its contents over one variable
after the other, and the squarefree parts of what is primitive.  A squarefree part
is factored through its image under Kronecker's substitution: the factors of the
image are those of an integer polynomial in one variable, and a product of some of
them is tried as the image of a factor.  A part whose image is too large stays
whole.

The factors are canonical associates, listed by total degree, number of terms and
then their order; the constant makes up for what normalizing took away.
-/

namespace Meadow

namespace Poly

/-! ## Squarefree parts -/

/-- The integer coefficients of the canonical associate of an image. -/
def imageCoefficients (image : Poly) : IntPoly :=
  let p := image.normalized
  let table := p.expandIn Kronecker.imageVar
  (List.range (p.degreeIn Kronecker.imageVar + 1)).map fun i => ((table.get i).coeff .one).num

/-- The image with given coefficients, the constant one first. -/
def ofImageCoefficients (cs : IntPoly) : Poly :=
  ofTerms (cs.zipIdx.reverse.map fun c => (.power Kronecker.imageVar c.2, (c.1 : Rat)))

/-- The irreducible factors of an image, each as often as it divides. -/
def imageFactors (image : Poly) : List Poly :=
  let m := image.monomialContent
  let rest := (image.divMonomial? m).getD image
  List.replicate (m.exponent Kronecker.imageVar) (var Kronecker.imageVar) ++
    (squarefreeParts rest Kronecker.imageVar).flatMap fun part =>
      (IntPoly.factorSquarefree (imageCoefficients part.1)).flatMap fun cs =>
        List.replicate part.2 (ofImageCoefficients cs)

/-- Degree one in all, or degree one in a variable over which the content is
constant. -/
def isEvidentlyIrreducible (p : Poly) : Bool :=
  decide (p.totalDegree ≤ 1) ||
    p.vars.any fun v => p.degreeIn v == 1 && (p.content v).isConstant

/-- A divisor found among the products of pieces: the divisor, the cofactor and the
places of the pieces used. -/
structure Found where
  divisor : Poly
  cofactor : Poly
  places : List Nat

/-- Look for a divisor of `p` whose image is the product of `size` pieces. -/
def findDivisor? (k : Kronecker) (p : Poly) (pieces : List Poly) (size : Nat) : Option Found :=
  Subset.search?
    (fun places =>
      match k.preimage? ((Subset.select pieces places).foldl mul one) with
      | none => none
      | some c =>
        if c.isConstant then none else (p.divExact? c).map fun cofactor => ⟨c, cofactor, places⟩)
    pieces.length size

/-- Take divisors off `p` while at least two sets of `size` pieces are left; a
divisor found uses its pieces up, and a failure lets the size grow. -/
def recombineSteps (k : Kronecker) : Nat → Nat → Poly → List Poly → List Poly
  | 0, _, p, _ => if p.isConstant then [] else [p.normalized]
  | steps + 1, size, p, pieces =>
    if 2 * size ≤ pieces.length then
      match findDivisor? k p pieces size with
      | some found =>
        found.divisor.normalized ::
          recombineSteps k steps size found.cofactor (Subset.remove pieces found.places)
      | none => recombineSteps k steps (size + 1) p pieces
    else if p.isConstant then []
    else [p.normalized]

/-- The factors of `p` from the pieces of its image, by the smallest sets of pieces
first.  Each step uses pieces up or enlarges the sets, so there are no more steps
than pieces. -/
def recombine (k : Kronecker) (p : Poly) (pieces : List Poly) : List Poly :=
  recombineSteps k (pieces.length + 1) 1 p pieces

/-- The irreducible factors of a squarefree polynomial. -/
def irreducibleFactors (p : Poly) : List Poly :=
  if p.isEvidentlyIrreducible then [p.normalized]
  else
    match Kronecker.ofPoly? p with
    | none => [p.normalized]
    | some k =>
      let pieces := imageFactors (k.image p)
      if k.places.length = 1 then
        pieces.filterMap fun piece => (k.preimage? piece).map normalized
      else recombine k p pieces

end Poly

/-! ## The factorization -/

/-- A constant times powers of polynomials. -/
structure Factorization where
  constant : Rat
  factors : List (Poly × Nat)
  deriving DecidableEq

namespace Factorization

/-- The product of the powers, without the constant. -/
def product (fs : List (Poly × Nat)) : Poly :=
  fs.foldl (fun acc f => acc.mul (f.1.pow f.2)) .one

/-- Multiply the factorization out. -/
def expand (f : Factorization) : Poly := (product f.factors).scale f.constant

/-- The order of the factors: total degree, number of terms, then their order. -/
def cmp (f g : Poly) : Ordering :=
  (compare f.totalDegree g.totalDegree).then ((compare f.size g.size).then (f.cmp g))

/-- Add the multiplicities of equal neighbours. -/
def mergeEqual : List (Poly × Nat) → List (Poly × Nat)
  | [] => []
  | f :: fs =>
    match mergeEqual fs with
    | [] => [f]
    | g :: gs => if f.1 = g.1 then (g.1, f.2 + g.2) :: gs else f :: g :: gs

end Factorization

namespace Poly

/-- The factors of `p` with their multiplicities, those of its contents over the
listed variables before those of the primitive parts. -/
def collectFactors : List String → Poly → List (Poly × Nat)
  | [], _ => []
  | v :: vs, p =>
    if p.isConstant then []
    else if p.degreeIn v = 0 then collectFactors vs p
    else
      let ⟨content, primitive⟩ := p.splitContent v
      collectFactors vs content ++
        (squarefreeParts primitive v).flatMap fun part =>
          ((irreducibleFactors part.1).filter fun f => !f.isConstant).map fun f => (f, part.2)

/-- The factorization of a polynomial. -/
def factorize (p : Poly) : Factorization :=
  match p.constantValue? with
  | some c => ⟨c, []⟩
  | none =>
    let m := p.monomialContent
    let rest := (p.divMonomial? m).getD p
    let found := m.powers.map (fun w => (var w.1, w.2)) ++ collectFactors rest.vars rest
    let factors := Factorization.mergeEqual
      (found.mergeSort fun f g => (Factorization.cmp f.1 g.1).isLE)
    ⟨p.leadingCoeff / (Factorization.product factors).leadingCoeff, factors⟩

/-- The distinct factors; a constant is its own only factor. -/
def factors (p : Poly) : List Poly :=
  if p.isConstant then [p] else p.factorize.factors.map Prod.fst

/-- The product of the distinct factors; a constant stays itself. -/
def radical (p : Poly) : Poly := if p.isConstant then p else p.factors.foldl mul one

end Poly
end Meadow
