import Meadow.Univariate.Integer
import Meadow.Univariate.Modular

set_option autoImplicit false

/-!
# Factorization modulo a prime

A monic squarefree polynomial modulo an odd prime is first split by the degrees of
its irreducible factors: the irreducible polynomials whose degree divides `d` are
those that divide `X^(p^d) - X`.  A product of irreducible factors of one degree is
then split by random polynomials, raised to half the order of the multiplicative
group of the residue fields: about half of the factors divide the result less one.

The prime itself is chosen among the first few that keep the degree of an integer
polynomial and leave it squarefree, for the fewest factors.
-/

namespace Meadow

/-- A source of pseudo-random words: each is the one before with shifts of itself
added bit by bit. -/
structure WordSource where
  state : UInt64

namespace WordSource

/-- The source before its first word. -/
def start : WordSource := ⟨0x2545f4914f6cdd1d⟩

/-- The next word, with the source after it. -/
def next (s : WordSource) : UInt64 × WordSource :=
  let x := s.state ^^^ (s.state <<< 13)
  let x := x ^^^ (x >>> 7)
  let x := x ^^^ (x <<< 17)
  (x, ⟨x⟩)

/-- A polynomial with `n` random coefficients below `p`, of which the leading ones
may be zero. -/
def coefficients (p : Nat) : Nat → WordSource → List Nat × WordSource
  | 0, s => ([], s)
  | n + 1, s =>
    let (x, s) := s.next
    let (xs, s) := coefficients p n s
    ((x % p.toUInt64).toNat :: xs, s)

end WordSource

namespace ModPoly

/-! ## Splitting by degree -/

/-- Split off the irreducible factors of degree `d + 1`, then those of higher
degree.  `h` is `X^(p^d)` modulo `f`, and all irreducible factors of `f` have a
degree above `d`; when there is no room for two of them, `f` is irreducible. -/
def degreeSteps (p : Nat) : Nat → Nat → ModPoly → ModPoly → List (ModPoly × Nat)
  | 0, _, f, _ => if f.length > 1 then [(f, f.degree)] else []
  | steps + 1, d, f, h =>
    if f.length > 2 * (d + 1) then
      let h := powMod p h p f
      let g := gcd p (sub p h X) f
      if g.length > 1 then
        let f' := div p f g
        (g, d + 1) :: degreeSteps p steps (d + 1) f' (rem p h f')
      else degreeSteps p steps (d + 1) f h
    else if f.length > 1 then [(f, f.degree)]
    else []

/-- The products of the irreducible factors of each degree that occurs, with that
degree, for a monic squarefree polynomial. -/
def distinctDegree (p : Nat) (f : ModPoly) : List (ModPoly × Nat) :=
  degreeSteps p f.length 0 f X

/-! ## Splitting factors of one degree -/

/-- Random polynomials tried for one split. -/
def splitAttempts : Nat := 256

/-- Try to split `f` by random polynomials. -/
def drawSplit (p : Nat) (f : ModPoly) (exponent : Nat) :
    Nat → WordSource → Option (ModPoly × ModPoly) × WordSource
  | 0, s => (none, s)
  | attempts + 1, s =>
    let (cs, s) := WordSource.coefficients p f.degree s
    let a := trim cs
    if a.length < 2 then drawSplit p f exponent attempts s
    else
      let g := gcd p (sub p (powMod p a exponent f) one) f
      if g.length > 1 ∧ g.length < f.length then (some (g, div p f g), s)
      else drawSplit p f exponent attempts s

/-- Split a product of irreducible factors of degree `d`; every split makes the
parts shorter.  A part that no attempt splits stays whole. -/
def equalDegreeSteps (p d : Nat) : Nat → ModPoly → WordSource → List ModPoly × WordSource
  | 0, f, s => ([f], s)
  | steps + 1, f, s =>
    if f.degree ≤ d then ([f], s)
    else
      match drawSplit p f ((p.pow d - 1) / 2) splitAttempts s with
      | (none, s) => ([f], s)
      | (some (g, h), s) =>
        let (gs, s) := equalDegreeSteps p d steps g s
        let (hs, s) := equalDegreeSteps p d steps h s
        (gs ++ hs, s)

/-- The irreducible factors of a product of irreducible factors of degree `d`. -/
def equalDegree (p d : Nat) (f : ModPoly) (s : WordSource) : List ModPoly × WordSource :=
  equalDegreeSteps p d f.length f s

/-- The irreducible factors of several products, each of factors of one degree. -/
def equalDegrees (p : Nat) : List (ModPoly × Nat) → WordSource → List ModPoly
  | [], _ => []
  | (f, d) :: parts, s =>
    let (gs, s) := equalDegree p d f s
    gs ++ equalDegrees p parts s

end ModPoly

/-! ## The choice of a prime -/

/-- Is `n` free of divisors from `i` on, up to its root? -/
def noDivisorFrom (n : Nat) : Nat → Nat → Bool
  | 0, _ => true
  | steps + 1, i =>
    if i * i > n then true
    else if n % i = 0 then false
    else noDivisorFrom n steps (i + 1)

/-- Is `n` a prime number? -/
def isPrime (n : Nat) : Bool := decide (2 ≤ n) && noDivisorFrom n n 2

/-- A prime with the factors by degree of a polynomial modulo it. -/
structure PrimeChoice where
  prime : Nat
  parts : List (ModPoly × Nat)

namespace PrimeChoice

/-- The number of irreducible factors. -/
def factorCount (c : PrimeChoice) : Nat :=
  c.parts.foldr (fun part n => part.1.degree / part.2 + n) 0

/-- The choice of a given prime, if the polynomial keeps its degree modulo it and
stays squarefree. -/
def of? (f : IntPoly) (p : Nat) : Option PrimeChoice :=
  if f.lead % p = 0 then none
  else
    let g := ModPoly.ofInts p f
    if (ModPoly.gcd p g (ModPoly.derivative p g)).length > 1 then none
    else some ⟨p, ModPoly.distinctDegree p (ModPoly.monic p g)⟩

/-- The better of two choices: the one with fewer factors, the earlier one on a
tie. -/
def better (best : Option PrimeChoice) (c : PrimeChoice) : PrimeChoice :=
  match best with
  | none => c
  | some b => if c.factorCount < b.factorCount then c else b

/-- Go on from the odd number `p`, with so many good primes still to compare. -/
def search (f : IntPoly) : Nat → Nat → Nat → Option PrimeChoice → Option PrimeChoice
  | 0, _, _, best => best
  | candidates + 1, p, wanted, best =>
    match if isPrime p then of? f p else none with
    | none => search f candidates (p + 2) wanted best
    | some c =>
      let best := better best c
      if wanted ≤ 1 ∨ c.factorCount = 1 then some best
      else search f candidates (p + 2) (wanted - 1) (some best)

/-- Good primes that are compared. -/
def trials : Nat := 3

/-- The best of the first few good odd primes below the limit; the search ends with
the first modulo which the polynomial is irreducible. -/
def ofPoly? (f : IntPoly) : Option PrimeChoice := search f (primeLimit / 2 - 1) 3 trials none

end PrimeChoice

/-- A good prime for an integer polynomial, with its monic irreducible factors
modulo that prime. -/
def modularFactors? (f : IntPoly) : Option (Nat × List ModPoly) :=
  (PrimeChoice.ofPoly? f).map fun c => (c.prime, ModPoly.equalDegrees c.prime c.parts .start)

end Meadow
