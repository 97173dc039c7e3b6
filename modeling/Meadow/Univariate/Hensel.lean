import Meadow.Univariate.Integer
import Meadow.Univariate.Modular

set_option autoImplicit false

/-!
# Lifting a factorization to a prime power

A factorization modulo a prime `p` into coprime factors is carried over to the
powers of `p` one at a time.  What the product of the lifted factors misses is a
multiple of the power reached so far; an inverse of one factor modulo the other tells
how to correct them for the next.
-/

namespace Meadow

namespace ModPoly

/-- The residues as integers. -/
def toInts (a : ModPoly) : IntPoly := a.map Int.ofNat

end ModPoly

namespace Hensel

/-- Solve `a * h + b * g = e` modulo `p`, with `a` of lower degree than `g`, where
`t * h` is one modulo `g`. -/
def correction (p : Nat) (g h t e : ModPoly) : ModPoly × ModPoly :=
  let a := ModPoly.mulMod p g t (ModPoly.rem p e g)
  (a, ModPoly.div p (ModPoly.sub p e (ModPoly.mul p a h)) g)

/-- Lift the factors `G` and `H` of `f` from modulus `m` on, for so many steps; their
residues are `g` and `h`. -/
def liftSteps (p : Nat) (f : IntPoly) (g h t : ModPoly) :
    Nat → Nat → IntPoly → IntPoly → IntPoly × IntPoly
  | 0, _, G, H => (G, H)
  | steps + 1, m, G, H =>
    let error := (f.sub (G.mul H)).map (· / (m : Int))
    let ⟨a, b⟩ := correction p g h t (ModPoly.ofInts p error)
    liftSteps p f g h t steps (m * p) (G.add (a.toInts.scale m)) (H.add (b.toInts.scale m))

/-- Lift `f = g * h` modulo `p`, for a monic `g` coprime to `h`, to a factorization
modulo `p ^ k`. -/
def lift (p k : Nat) (f : IntPoly) (g h : ModPoly) : IntPoly × IntPoly :=
  liftSteps p f g h (ModPoly.bezout p g h).2 (k - 1) p g.toInts h.toInts

/-- The inverse modulo `p ^ k` of an integer that `p` does not divide: by Euler's
theorem, the power one below the number of invertible residues. -/
def inverse (p k : Nat) (a : Int) : Nat :=
  let m := p.pow k
  powerBy (fun x y => x * y % m) (1 % m) (a % (m : Int)).toNat (m - p.pow (k - 1) - 1)

/-- Lift the monic factors of `f` modulo `p`, up to its leading coefficient, to
monic factors modulo `p ^ k`: each is split off what the ones before it leave, and
the last one is the rest. -/
def liftAll (p k : Nat) : IntPoly → List ModPoly → List IntPoly
  | f, g :: g' :: gs =>
    let h := ModPoly.div p (ModPoly.ofInts p f) g
    let ⟨G, H⟩ := lift p k f g h
    G :: liftAll p k (H.residues (p.pow k)) (g' :: gs)
  | f, _ => [(f.scale (inverse p k f.lead)).residues (p.pow k)]

end Hensel
end Meadow
