import Meadow.CaseSplit
import Meadow.Stored.Form

set_option autoImplicit false

/-!
# Evaluating stored forms

Assumptions about stored polynomials, evaluation under them, and the decision by cases.
-/

namespace Meadow.Stored

/-! ## Assumptions -/

/-- A finite set of stored polynomials. -/
abbrev PolySet := FinSet Poly Poly.cmp

/-- The polynomials that are assumed to be zero, and those assumed not to be. -/
structure Assumptions where
  zeros : PolySet
  nonzeros : PolySet
  deriving DecidableEq

namespace Assumptions

/-- Assume some variables to be zero and some not to be. -/
def ofVars (zero nonzero : List String) : Assumptions :=
  ⟨.ofList (zero.map Poly.var), .ofList (nonzero.map Poly.var)⟩

/-- Assume one more polynomial to be zero. -/
def withZero (a : Assumptions) (p : Poly) : Assumptions := ⟨.insert p a.zeros, a.nonzeros⟩

/-- Assume more polynomials not to be zero. -/
def withNonzeros (a : Assumptions) (ps : List Poly) : Assumptions :=
  ⟨a.zeros, .insertAll ps a.nonzeros⟩

/-- The variables among the polynomials assumed to be zero. -/
def zeroVars (a : Assumptions) : List String := a.zeros.toList.filterMap Poly.asVariable?

/-- The text of a set of polynomials, without braces. -/
def renderSet (s : PolySet) : Machine String :=
  return ", ".intercalate (← s.toList.mapM Poly.render)

/-- The text of assumptions, both sets in braces. -/
def render (a : Assumptions) : Machine String :=
  return "zeros \x7b" ++ (← renderSet a.zeros) ++ "\x7d, nonzeros \x7b" ++
    (← renderSet a.nonzeros) ++ "\x7d"

/-! ## Evaluation -/

/-- The polynomials assumed to be zero that are no variables, after putting zero for the
variables that are; constants among them say nothing. -/
def zeroDivisors (a : Assumptions) : List Poly :=
  ((a.zeros.toList.filter fun p => p.asVariable?.isNone).map fun p =>
    p.substituteZeros a.zeroVars).filter fun p => !p.isConstant

/-- The product of the factors of a polynomial that are not assumed to be nonzero, or zero as
soon as one of them vanishes. -/
def evalFactors (a : Assumptions) (divisors : List Poly) : Poly → List Poly → Machine Poly
  | acc, [] => return acc
  | acc, f :: fs => do
    if a.nonzeros.contains f then evalFactors a divisors acc fs
    else
      let f := f.substituteZeros a.zeroVars
      if f.isZero then return .zero
      if ← divisors.anyM fun d => return (← f.divExact? d).isSome then return .zero
      evalFactors a divisors (← acc.mul f) fs

/-- A polynomial that is zero under the assumptions where `p` is. -/
def evalPoly (a : Assumptions) (p : Poly) : Machine Poly := do
  if p.isConstant then return p else evalFactors a a.zeroDivisors .one (← p.factors)

end Assumptions

/-- A form that is zero under the assumptions only where this one is. -/
def Form.eval : Form → Assumptions → Machine Form
  | .poly p, a => return .poly (← a.evalPoly p)
  | .frac n d, a => do mul (.poly (← a.evalPoly n)) (.poly (← a.evalPoly d))
  | .cond c t e, a => do
    let c ← a.evalPoly c
    let roots ← c.factors
    if c.isZero || roots.any a.zeros.contains then e.eval a
    else
      let t ← t.eval (a.withNonzeros roots)
      if c.isConstant || roots.all a.nonzeros.contains then return t
      else if !t.isZero then branch c t (← e.eval a)
      else
        let unsettled := roots.filter fun r => !a.nonzeros.contains r
        let residue? ← unsettled.findSomeM? fun r => do
          let f ← e.eval (a.withZero r)
          return if f.isZero then none else some f
        return residue?.getD .zero

/-! ## The decision -/

/-- The assumptions of a case. -/
def Assumptions.ofCase (c : Case) : Assumptions := .ofVars (c.varsWith .zero) (c.varsWith .nonzero)

/-- Whether a form is zero everywhere. -/
inductive Decision where
  /-- It is zero in every case. -/
  | proven
  /-- In this case something is left that need not be zero. -/
  | refuted (counterexample : Case) (residue : Form)
  deriving DecidableEq

namespace Form

/-- Look through so many cases from number `n` on. -/
def decideFrom (f : Form) (vars : List String) : Nat → Nat → Machine Decision
  | 0, _ => return .proven
  | remaining + 1, n => do
    let case := Case.ofNumber vars n
    let residue ← f.eval (.ofCase case)
    if residue.isZero then decideFrom f vars remaining (n + 1)
    else return .refuted case residue

/-- Decide whether a form is zero everywhere, unless it has more variables than the limit. -/
def decide (limit : Nat) (f : Form) : Machine (Except TooManyVariables Decision) := do
  let vars := f.vars
  if limit < vars.length then return .error ⟨vars.length, limit⟩
  return .ok (← f.decideFrom vars (Nat.pow 2 vars.length) 0)

end Form
end Meadow.Stored
