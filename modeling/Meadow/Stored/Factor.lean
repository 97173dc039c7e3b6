import Meadow.Poly.Kronecker
import Meadow.Stored.Gcd
import Meadow.Subset
import Meadow.Univariate.Factor

set_option autoImplicit false

/-!
# Factorization of stored polynomials

The stages of the factorization over machine words: monomial content, contents, squarefree
parts, and factors of the image under Kronecker's substitution.
-/

namespace Meadow

/-! ## Searching subsets -/

namespace Subset

variable {α : Type}

/-- The first success of a test among a subset and those that follow it. -/
def searchFromM? (test : List Nat → Machine (Option α)) (n : Nat) :
    Nat → List Nat → Machine (Option α)
  | 0, _ => return none
  | visits + 1, s => do
    match ← test s with
    | some a => return some a
    | none =>
      match next? n s with
      | some s' => searchFromM? test n visits s'
      | none => return none

/-- The first success of a test among the subsets of size `k` of the numbers below `n`. -/
def searchM? (test : List Nat → Machine (Option α)) (n k : Nat) : Machine (Option α) :=
  searchFromM? test n (Nat.pow 2 n) (first k)

end Subset

namespace Stored

/-! ## Kronecker's substitution -/

namespace Kronecker

/-- The places of variables with given degrees, from a weight on, unless a weight passes the
limit; with the weight behind the last place. -/
def placesFrom? (weight : Nat) : List (String × Nat) → Option (List Place × Nat)
  | [] => some ([], weight)
  | (v, d) :: rest =>
    let next := weight * (d + 1)
    if next > Meadow.Kronecker.degreeLimit + 1 then none
    else (placesFrom? next rest).map fun ps => (⟨v, weight, d + 1⟩ :: ps.1, ps.2)

/-- The substitution for a polynomial and its divisors, unless the degree of the image could
pass the limit. -/
def ofPoly? (p : Poly) : Option Kronecker :=
  (placesFrom? 1 (p.vars.map fun v => (v, (p.degreeIn v).toNat))).map fun ps => ⟨ps.1, ps.2⟩

/-- The power of the image variable that a monomial becomes. -/
def weigh (k : Kronecker) (m : Monomial) : Nat :=
  k.places.foldr (fun place n => (m.exponent place.var).toNat * place.weight + n) 0

/-- A power of the image variable. -/
def imagePower (e : Nat) : Monomial := .power Meadow.Kronecker.imageVar (UInt32.ofNat e)

/-- The image of a polynomial. -/
def image (k : Kronecker) (p : Poly) : Poly :=
  Poly.ofTerms (p.terms.map fun t => (imagePower (weigh k t.1), t.2))

/-- The monomial that a power of the image variable comes from. -/
def unweigh (k : Kronecker) (e : Nat) : Machine Monomial :=
  k.places.foldlM
    (fun m place => m.mul (.power place.var (UInt32.ofNat (e / place.weight % place.radix)))) .one

/-- The polynomial that an image comes from; nothing if some power is outside the span. -/
def preimage? (k : Kronecker) (image : Poly) : Machine (Option Poly) := do
  let exponent (t : Monomial × Rat) : Nat := (t.1.exponent Meadow.Kronecker.imageVar).toNat
  if image.terms.all fun t => decide (exponent t < k.span) then
    let ts ← image.terms.mapM fun t => do return (← unweigh k (exponent t), t.2)
    return some (Poly.ofTerms ts)
  return none

end Kronecker

namespace Poly

/-! ## Squarefree parts -/

/-- The integer coefficients of the canonical associate of an image. -/
def imageCoefficients (image : Poly) : IntPoly :=
  let p := image.normalized
  let table := p.expandIn Meadow.Kronecker.imageVar
  (List.range ((p.degreeIn Meadow.Kronecker.imageVar).toNat + 1)).map fun e =>
    (((table.get (UInt32.ofNat e)).constantValue?).getD 0).num

/-- The image with given coefficients, the constant one first. -/
def ofImageCoefficients (cs : IntPoly) : Poly :=
  ofTerms (cs.zipIdx.reverse.map fun c => (Kronecker.imagePower c.2, (c.1 : Rat)))

/-- The irreducible factors of an image, each as often as it divides. -/
def imageFactors (image : Poly) : Machine (List Poly) := do
  let m := image.monomialContent
  let rest := (image.divMonomial? m).getD image
  let parts ← squarefreeParts rest Meadow.Kronecker.imageVar
  return List.replicate (m.exponent Meadow.Kronecker.imageVar).toNat
      (var Meadow.Kronecker.imageVar) ++
    parts.flatMap fun part =>
      (IntPoly.factorSquarefree (imageCoefficients part.1)).flatMap fun cs =>
        List.replicate part.2.toNat (ofImageCoefficients cs)

/-- Degree one in all, or degree one in a variable over which the content is constant. -/
def isEvidentlyIrreducible (p : Poly) : Machine Bool := do
  if (← p.totalDegree) ≤ 1 then return true
  p.vars.anyM fun v => do
    if p.degreeIn v = 1 then return (← p.content v).isConstant else return false

/-- A divisor found among the products of pieces: the divisor, the cofactor and the places of
the pieces used. -/
structure Found where
  divisor : Poly
  cofactor : Poly
  places : List Nat

/-- The divisor of `p` whose image is the product of the pieces at the places, if there is
one. -/
def divisorAt? (k : Kronecker) (p : Poly) (pieces : List Poly) (places : List Nat) :
    Machine (Option Found) := do
  match ← Kronecker.preimage? k (← (Subset.select pieces places).foldlM mul one) with
  | none => return none
  | some c =>
    if c.isConstant then return none
    return (← p.divExact? c).map fun cofactor => ⟨c, cofactor, places⟩

/-- Look for a divisor of `p` whose image is the product of `size` pieces. -/
def findDivisor? (k : Kronecker) (p : Poly) (pieces : List Poly) (size : Nat) :
    Machine (Option Found) :=
  Subset.searchM? (divisorAt? k p pieces) pieces.length size

/-- Take divisors off `p` while at least two sets of `size` pieces are left; a divisor found
uses its pieces up, and a failure lets the size grow. -/
def recombineSteps (k : Kronecker) : Nat → Nat → Poly → List Poly → Machine (List Poly)
  | 0, _, p, _ => return if p.isConstant then [] else [p.normalized]
  | steps + 1, size, p, pieces => do
    if 2 * size ≤ pieces.length then
      match ← findDivisor? k p pieces size with
      | some found =>
        return found.divisor.normalized ::
          (← recombineSteps k steps size found.cofactor (Subset.remove pieces found.places))
      | none => recombineSteps k steps (size + 1) p pieces
    else return if p.isConstant then [] else [p.normalized]

/-- The factors of `p` from the pieces of its image, by the smallest sets of pieces first.
Each step uses pieces up or enlarges the sets, so there are no more steps than pieces. -/
def recombine (k : Kronecker) (p : Poly) (pieces : List Poly) : Machine (List Poly) :=
  recombineSteps k (pieces.length + 1) 1 p pieces

/-- The irreducible factors of a squarefree polynomial. -/
def irreducibleFactors (p : Poly) : Machine (List Poly) := do
  if ← p.isEvidentlyIrreducible then return [p.normalized]
  match Kronecker.ofPoly? p with
  | none => return [p.normalized]
  | some k =>
    let pieces ← imageFactors (Kronecker.image k p)
    if k.places.length = 1 then
      return (← pieces.mapM (Kronecker.preimage? k)).filterMap fun q => q.map normalized
    recombine k p pieces

end Poly

/-! ## The factorization -/

/-- A constant times powers of polynomials. -/
structure Factorization where
  constant : Rat
  factors : List (Poly × UInt32)
  deriving DecidableEq

namespace Factorization

/-- The product of the powers, without the constant. -/
def product (fs : List (Poly × UInt32)) (start : Poly) : Machine Poly :=
  fs.foldlM (fun acc f => do acc.mul (← f.1.pow f.2.toNat)) start

/-- Multiply the factorization out. -/
def expand (f : Factorization) : Machine Poly := product f.factors (.constant f.constant)

/-- The order of the factors: total degree, number of terms, then their order. -/
def cmp (f g : UInt32 × Poly × UInt32) : Ordering :=
  (compare f.1 g.1).then ((compare f.2.1.size g.2.1.size).then (f.2.1.cmp g.2.1))

/-- Put factors in order.  Degrees are formed only where there are factors to compare. -/
def sort (fs : List (Poly × UInt32)) : Machine (List (Poly × UInt32)) := do
  if fs.length < 2 then return fs
  let keyed ← fs.mapM fun f => do return (← f.1.totalDegree, f)
  return (keyed.mergeSort fun f g => (cmp f g).isLE).map Prod.snd

/-- Add the multiplicities of equal neighbours. -/
def mergeEqual : List (Poly × UInt32) → Machine (List (Poly × UInt32))
  | [] => return []
  | f :: fs => do
    match ← mergeEqual fs with
    | [] => return [f]
    | g :: gs =>
      if f.1 = g.1 then return (g.1, ← Machine.add f.2 g.2) :: gs else return f :: g :: gs

end Factorization

namespace Poly

/-- The factors of `p` with their multiplicities, those of its contents over one variable after
the other before those of the primitive parts. -/
def collectFactors (p : Poly) : Machine (List (Poly × UInt32)) := do
  if p.isConstant then return []
  match p.vars with
  | [] => return []
  | v :: _ =>
    let (content, primitive) ← p.splitContent v
    let inner ← content |>.collectFactors
    let parts ← squarefreeParts primitive v
    let found ← parts.mapM fun part => do
      return ((← irreducibleFactors part.1).filter fun f => !f.isConstant).map fun f =>
        (f, part.2)
    return inner ++ found.flatten
partial_fixpoint

/-- The factorization of a polynomial. -/
def factorize (p : Poly) : Machine Factorization := do
  match p.constantValue? with
  | some c => return ⟨c, []⟩
  | none =>
    let m := p.monomialContent
    let rest := (p.divMonomial? m).getD p
    let found := m.powers.map (fun w => (var w.1, w.2)) ++ (← rest.collectFactors)
    let factors ← Factorization.mergeEqual (← Factorization.sort found)
    let product ← Factorization.product factors one
    return ⟨← Machine.divide p.leadingCoeff product.leadingCoeff, factors⟩

/-- The distinct factors; a constant is its own only factor. -/
def factors (p : Poly) : Machine (List Poly) := do
  if p.isConstant then return [p]
  return (← p.factorize).factors.map Prod.fst

/-- The product of the distinct factors; a constant stays itself. -/
def radical (p : Poly) : Machine Poly := do
  if p.isConstant then return p
  (← p.factors).foldlM mul one

end Poly

/-! ## The text -/

namespace Factorization

/-- The text of a factor with its multiplicity. -/
def renderFactor (f : Poly × UInt32) : Machine String := do
  let text ← f.1.render
  let base := if f.1.size > 1 then "(" ++ text ++ ")" else text
  return if f.2 > 1 then base ++ "**" ++ toString f.2 else base

/-- The text of the constant, or of its sign, and of the factors. -/
def renderFactors (c : Rat) (fs : List (Poly × UInt32)) : Machine String := do
  let parts ← fs.mapM renderFactor
  return if c = -1 then "-" ++ "*".intercalate parts
    else if c = 1 then "*".intercalate parts
    else "*".intercalate (renderRat c :: parts)

/-- The text of a factorization, such as `-2*x*(x + y)**2`. -/
def render (f : Factorization) : Machine String :=
  match f.factors with
  | [] => return renderRat f.constant
  | [(p, k)] =>
    if k = 1 ∧ f.constant = 1 then p.render else renderFactors f.constant [(p, k)]
  | fs => renderFactors f.constant fs

end Factorization
end Stored
end Meadow
