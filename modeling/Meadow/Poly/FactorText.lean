import Meadow.Poly.Factor
import Meadow.Poly.Text

set_option autoImplicit false

/-!
# The text of a factorization

The constant comes first unless it is one, a constant of minus one being only its
sign; then the factors, those of more than one term in parentheses, with their
multiplicity after `**`.
-/

namespace Meadow.Factorization

/-- The text of a factor with its multiplicity. -/
def renderFactor (f : Poly × Nat) : String :=
  let base := if f.1.size > 1 then "(" ++ f.1.render ++ ")" else f.1.render
  if f.2 > 1 then base ++ "**" ++ toString f.2 else base

/-- The text of a factorization, such as `-2*x*(x + y)**2`.  A single factor that is
the whole polynomial stands without parentheses. -/
def render (f : Factorization) : String :=
  match f.factors with
  | [] => renderRat f.constant
  | [(p, 1)] =>
    if f.constant = 1 then p.render
    else renderFactors f.constant [(p, 1)]
  | fs => renderFactors f.constant fs
where
  /-- The constant, or its sign, in front of the factors. -/
  renderFactors (c : Rat) (fs : List (Poly × Nat)) : String :=
    let parts := fs.map renderFactor
    if c = -1 then "-" ++ "*".intercalate parts
    else if c = 1 then "*".intercalate parts
    else "*".intercalate (renderRat c :: parts)

end Meadow.Factorization
