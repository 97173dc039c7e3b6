import Meadow.Poly.Division

set_option autoImplicit false

/-!
# Greatest common divisors

The greatest common divisor is found one variable after the other.  Over the
first variable of either polynomial, both are split into a content, the greatest
common divisor of the coefficients, and a primitive part.  The contents have no
such variable any more; the primitive parts go through a sequence of
pseudo-remainders, each made primitive.  The result is the canonical associate,
so it does not depend on the way that it was found.
-/

namespace Meadow.Poly

/-! ## One variable, given the greatest common divisors in the others -/

/-- The greatest common divisor, by `g`, of the coefficients over a variable. -/
def contentBy (g : Poly → Poly → Poly) (p : Poly) (v : String) : Poly :=
  (p.expandIn v).entries.foldl (fun acc e => if acc.isOne then acc else g acc e.2) zero

/-- Split a polynomial into its content over a variable and the primitive part. -/
def splitContentBy (g : Poly → Poly → Poly) (p : Poly) (v : String) : Poly × Poly :=
  let content := contentBy g p v
  if content.isZero || content.isOne then (one, p)
  else (content, (p.divExact? content).getD p)

/-- The primitive part over a variable, as its canonical associate. -/
def primitiveBy (g : Poly → Poly → Poly) (p : Poly) (v : String) : Poly :=
  (splitContentBy g p v).2.normalized

/-- Cancel the highest power of a variable in `r` by a multiple of `g`, after
multiplying `r` by the leading coefficient of `g`, until its degree is below that
of `g`.  Every step lowers the degree, so one more step than it suffices. -/
def pseudoRemainder (v : String) (g : Poly) : Nat → Poly → Poly
  | 0, r => r
  | steps + 1, r =>
    if r.isZero || decide (r.degreeIn v < g.degreeIn v) then r
    else
      let shift := Monomial.power v (r.degreeIn v - g.degreeIn v)
      pseudoRemainder v g steps
        (((g.leadingCoefficientIn v).mul r).sub
          (((r.leadingCoefficientIn v).mulTerm shift 1).mul g))

/-- Follow the pseudo-remainders of two polynomials that are primitive over a
variable, down to a remainder that is zero or free of it.  Every step lowers the
degree of `h`. -/
def primitiveRemainders (g : Poly → Poly → Poly) (v : String) : Nat → Poly → Poly → Poly
  | 0, _, h => (primitiveBy g h v)
  | steps + 1, f, h =>
    let r := pseudoRemainder v h (f.degreeIn v + 1) f
    if r.isZero then primitiveBy g h v
    else if r.degreeIn v = 0 then one
    else primitiveRemainders g v steps h (primitiveBy g r v)

/-- The greatest common divisor of two primitive polynomials over a variable. -/
def primitiveGcd (g : Poly → Poly → Poly) (v : String) (a b : Poly) : Poly :=
  if a.degreeIn v < b.degreeIn v then primitiveRemainders g v (a.degreeIn v) b a
  else primitiveRemainders g v (b.degreeIn v) a b

/-! ## All variables -/

/-- The greatest common divisor of two polynomials in the listed variables. -/
def gcdOver : List String → Poly → Poly → Poly
  | [], a, b => if a.isZero then b.normalized else if b.isZero then a.normalized else one
  | v :: vs, a, b =>
    if a.isZero then b.normalized
    else if b.isZero then a.normalized
    else if a.isConstant || b.isConstant then one
    else if a.degreeIn v = 0 then
      if b.degreeIn v = 0 then gcdOver vs a b
      else gcdOver vs a (contentBy (gcdOver vs) b v)
    else if b.degreeIn v = 0 then gcdOver vs (contentBy (gcdOver vs) a v) b
    else
      let ⟨contentA, primitiveA⟩ := splitContentBy (gcdOver vs) a v
      let ⟨contentB, primitiveB⟩ := splitContentBy (gcdOver vs) b v
      ((gcdOver vs contentA contentB).mul
        (primitiveGcd (gcdOver vs) v primitiveA primitiveB)).normalized

/-- The greatest common divisor, as its canonical associate; that of zero and
zero is zero. -/
def gcd (a b : Poly) : Poly := gcdOver (a.degrees.lcm b.degrees).vars a b

/-- The greatest common divisor of the coefficients over a variable. -/
def content (p : Poly) (v : String) : Poly := contentBy gcd p v

/-- Split a polynomial into its content over a variable and the primitive part. -/
def splitContent (p : Poly) (v : String) : Poly × Poly := splitContentBy gcd p v

end Meadow.Poly
