import Meadow.FinSupp.Set
import Meadow.Poly.Text

set_option autoImplicit false

/-!
# Assumptions

A case of a proof assumes some polynomials to be zero and some others not to be.
-/

namespace Meadow

/-- A finite set of polynomials. -/
abbrev PolySet := FinSet Poly Poly.cmp

/-- The polynomials that are assumed to be zero, and those assumed not to be. -/
structure Assumptions where
  zeros : PolySet
  nonzeros : PolySet
  deriving DecidableEq

namespace Assumptions

/-- No assumption at all. -/
def none : Assumptions := ⟨.empty, .empty⟩

instance : Inhabited Assumptions := ⟨none⟩

/-- Assume some variables to be zero and some not to be. -/
def ofVars (zero nonzero : List String) : Assumptions :=
  ⟨.ofList (zero.map Poly.var), .ofList (nonzero.map Poly.var)⟩

/-- Assume one more polynomial to be zero. -/
def withZero (a : Assumptions) (p : Poly) : Assumptions := ⟨.insert p a.zeros, a.nonzeros⟩

/-- Assume more polynomials not to be zero. -/
def withNonzeros (a : Assumptions) (ps : List Poly) : Assumptions :=
  ⟨a.zeros, .insertAll ps a.nonzeros⟩

/-- The variables among the polynomials assumed to be zero. -/
def zeroVars (a : Assumptions) : List String := a.zeros.toList.filterMap Poly.asVariable?

/-- The text of a set of polynomials, without braces. -/
def renderSet (s : PolySet) : String := ", ".intercalate (s.toList.map Poly.render)

/-- The text of assumptions, both sets in braces. -/
def render (a : Assumptions) : String :=
  "zeros \x7b" ++ renderSet a.zeros ++ "\x7d, nonzeros \x7b" ++ renderSet a.nonzeros ++ "\x7d"

end Assumptions
end Meadow
