import Meadow.Assumptions
import Meadow.Form.Arithmetic

set_option autoImplicit false

/-!
# Evaluation under assumptions

Evaluating a form under assumptions keeps only whether it is zero: factors assumed
not to be zero are dropped, variables assumed to be zero are replaced, and a
polynomial vanishes with any factor that a polynomial assumed to be zero divides.
A quotient is evaluated as a product, which is zero where it is.

A conditional whose condition is left open is settled by further cases: its branch
for other values under the assumption that no factor of the condition is zero, and
its branch for zero under the assumption that one of them is, for each in turn.
-/

namespace Meadow

/-- Put zero for all the variables. -/
def Poly.substituteZeros (p : Poly) (vs : List String) : Poly := vs.foldl substituteZero p

namespace Assumptions

/-- The polynomials assumed to be zero that are no variables, after putting zero for
the variables that are; constants among them say nothing. -/
def zeroDivisors (a : Assumptions) : List Poly :=
  ((a.zeros.toList.filter fun p => p.asVariable?.isNone).map fun p =>
    p.substituteZeros a.zeroVars).filter fun p => !p.isConstant

/-- The product of the factors of a polynomial that are not assumed to be nonzero,
or zero as soon as one of them vanishes. -/
def evalFactors (a : Assumptions) (divisors : List Poly) : Poly → List Poly → Poly
  | acc, [] => acc
  | acc, f :: fs =>
    if a.nonzeros.contains f then evalFactors a divisors acc fs
    else
      let f := f.substituteZeros a.zeroVars
      if f.isZero || divisors.any fun d => (f.divExact? d).isSome then .zero
      else evalFactors a divisors (acc.mul f) fs

/-- A polynomial that is zero under the assumptions where `p` is. -/
def evalPoly (a : Assumptions) (p : Poly) : Poly :=
  if p.isConstant then p else evalFactors a a.zeroDivisors .one p.factors

end Assumptions

/-- A form that is zero under the assumptions only where this one is. -/
def Form.eval : Form → Assumptions → Form
  | .poly p, a => .poly (a.evalPoly p)
  | .frac n d, a => mul (.poly (a.evalPoly n)) (.poly (a.evalPoly d))
  | .cond c t e, a =>
    let c := a.evalPoly c
    let roots := c.factors
    if c.isZero || roots.any a.zeros.contains then e.eval a
    else
      let t := t.eval (a.withNonzeros roots)
      if c.isConstant || roots.all a.nonzeros.contains then t
      else if !t.isZero then branch c t (e.eval a)
      else
        let unsettled := roots.filter fun r => !a.nonzeros.contains r
        (unsettled.findSome? fun r =>
          let f := e.eval (a.withZero r)
          if f.isZero then none else some f).getD .zero

end Meadow
