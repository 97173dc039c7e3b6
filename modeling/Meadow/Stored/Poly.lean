import Meadow.FinSupp.Set
import Meadow.Poly.Text
import Meadow.Stored.Monomial

set_option autoImplicit false

/-!
# Stored polynomials

A polynomial as the program stores it: the coefficients, none of them zero, of different
stored monomials.  Only a product of monomials can overflow, so the operations that form
one are computations of a machine, and all others are functions.
-/

namespace Meadow.Stored

/-- A polynomial in named variables with rational coefficients, as it is stored. -/
structure Poly where
  coeffs : FinSupp Monomial Rat (descending Monomial.lexCmp) 0
  deriving DecidableEq

namespace Poly

/-! ## Reading -/

/-- The coefficient of a stored monomial, zero if it does not occur. -/
def coeff (p : Poly) (m : Monomial) : Rat := p.coeffs.get m

/-- The terms, the lexicographically largest monomial first. -/
def terms (p : Poly) : List (Monomial × Rat) := p.coeffs.entries

/-- The number of terms. -/
def size (p : Poly) : Nat := p.terms.length

/-- The term of the lexicographically largest monomial. -/
def leadingTerm? (p : Poly) : Option (Monomial × Rat) := p.terms.head?

/-- The coefficient of the lexicographically largest monomial; zero for the zero
polynomial. -/
def leadingCoeff (p : Poly) : Rat :=
  match p.leadingTerm? with
  | some t => t.2
  | none => 0

def isZero (p : Poly) : Bool := p.terms.isEmpty

/-- Is the empty product the only monomial, if there is any? -/
def isConstant (p : Poly) : Bool := p.terms.all fun t => t.1.isOne

/-- The value of a constant polynomial. -/
def constantValue? (p : Poly) : Option Rat :=
  if p.isConstant then some (p.coeff .one) else none

/-- Is this the constant one? -/
def isOne (p : Poly) : Bool :=
  match p.constantValue? with
  | some c => decide (c = 1)
  | none => false

/-- The name of the variable that this polynomial is, if it is just a variable. -/
def asVariable? (p : Poly) : Option String :=
  match p.terms with
  | [(m, c)] =>
    match m.powers with
    | [(v, e)] => if e = 1 ∧ c = 1 then some v else none
    | _ => none
  | _ => none

/-- The largest degree of a term. -/
def totalDegree (p : Poly) : Machine UInt32 :=
  p.terms.foldrM (fun t d => do return max (← t.1.degree) d) 0

/-- The largest exponent of a variable. -/
def degreeIn (p : Poly) (v : String) : UInt32 :=
  p.terms.foldr (fun t d => max (t.1.exponent v) d) 0

/-- The set of the names for which some exponent is stored. -/
def nameSet (p : Poly) : FinSet String compare := .ofList (p.terms.flatMap fun t => t.1.names)

/-- The names for which some exponent is stored, in increasing order. -/
def vars (p : Poly) : List String := p.nameSet.toList

/-- The largest monomial that divides every term; the empty product for the zero
polynomial. -/
def monomialContent (p : Poly) : Monomial :=
  match p.terms with
  | [] => .one
  | t :: ts => ts.foldl (fun m u => m.gcd u.1) t.1

/-! ## Building -/

def zero : Poly := ⟨.empty⟩

instance : Inhabited Poly := ⟨zero⟩

/-- A single term; zero if the coefficient is. -/
def monomial (m : Monomial) (c : Rat) : Poly := ⟨.single m c⟩

/-- A constant polynomial. -/
def constant (c : Rat) : Poly := monomial .one c

def one : Poly := constant 1

/-- The polynomial that is a single variable. -/
def var (v : String) : Poly := monomial (.power v 1) 1

/-! ## Arithmetic -/

def add (p q : Poly) : Poly := ⟨p.coeffs.merge (· + ·) q.coeffs⟩

/-- Multiply every coefficient by a rational. -/
def scale (c : Rat) (p : Poly) : Poly := ⟨p.coeffs.mapVals fun _ a => c * a⟩

def neg (p : Poly) : Poly := p.scale (-1)

def sub (p q : Poly) : Poly := p.add q.neg

/-- The sum of a list of terms, in any order and with any repetition. -/
def ofTerms (ts : List (Monomial × Rat)) : Poly :=
  ts.foldr (fun t acc => (monomial t.1 t.2).add acc) zero

/-- Put a term into a polynomial, in the place of any other one with its monomial. -/
def putTerm (p : Poly) (t : Monomial × Rat) : Poly :=
  ⟨(FinSupp.single t.1 t.2).merge (fun new _ => new) p.coeffs⟩

/-- The terms in increasing structural order of their monomials. -/
def listed (p : Poly) : List (Monomial × Rat) :=
  p.terms.mergeSort fun s t => (s.1.cmp t.1).isLE

/-- Multiply terms by a single one. -/
def mulTerms (m : Monomial) (c : Rat) (ts : List (Monomial × Rat)) :
    Machine (List (Monomial × Rat)) :=
  ts.mapM fun t => do return (← t.1.mul m, t.2 * c)

/-- Multiply by a single term.  Where two of the products have the same monomial, the one
listed later stays. -/
def mulTerm (m : Monomial) (c : Rat) (p : Poly) : Machine Poly := do
  if c = 0 then return zero
  return (← mulTerms m c p.listed).foldl putTerm zero

def mul (p q : Poly) : Machine Poly :=
  p.terms.foldrM (fun t acc => do return (ofTerms (← mulTerms t.1 t.2 q.terms)).add acc) zero

def pow (p : Poly) : Nat → Machine Poly
  | 0 => return one
  | n + 1 => do (← p.pow n).mul p

/-! ## One variable singled out -/

/-- The coefficient of a power of a variable, itself free of that variable. -/
def coefficientIn (p : Poly) (v : String) (e : UInt32) : Poly :=
  ofTerms ((p.terms.filter fun t => t.1.exponent v == e).map fun t => (t.1.without v, t.2))

/-- The powers of a variable that occur, the highest first, each with its coefficient. -/
def expandIn (p : Poly) (v : String) : FinSupp UInt32 Poly (descending compare) zero :=
  p.terms.foldr
    (fun t acc =>
      (FinSupp.single (t.1.exponent v) (monomial (t.1.without v) t.2)).merge add acc)
    .empty

/-- The coefficients of the powers of a variable that are not zero, that of the lowest power
first. -/
def nonzeroCoefficientsIn (p : Poly) (v : String) : List Poly :=
  ((p.expandIn v).entries.map Prod.snd).reverse

/-- All coefficients of the powers of a variable, the power zero first. -/
def coefficientsIn (p : Poly) (v : String) : List Poly :=
  (List.range ((p.degreeIn v).toNat + 1)).map fun e => p.coefficientIn v (UInt32.ofNat e)

/-- The coefficient of the highest power of a variable. -/
def leadingCoefficientIn (p : Poly) (v : String) : Poly := p.coefficientIn v (p.degreeIn v)

/-- Put zero for a variable. -/
def substituteZero (p : Poly) (v : String) : Poly :=
  ⟨p.coeffs.filter fun m => m.exponent v == 0⟩

/-- Put zero for all the variables. -/
def substituteZeros (p : Poly) (vs : List String) : Poly := vs.foldl substituteZero p

/-- The partial derivative with respect to a variable. -/
def derivative (p : Poly) (v : String) : Machine Poly := do
  let ts ← (p.terms.filter fun t => t.1.exponent v != 0).mapM fun t => do
    return (← (t.1.without v).mul (.power v (t.1.exponent v - 1)),
      t.2 * ((t.1.exponent v).toNat : Rat))
  return ofTerms ts

/-- Divide every term by a monomial, if it divides all of them. -/
def divMonomial? (p : Poly) (m : Monomial) : Option Poly :=
  (p.terms.mapM fun t : Monomial × Rat => (t.1.divide? m).map fun k => (k, t.2)).map ofTerms

/-! ## Canonical associates -/

/-- The least common multiple of the denominators. -/
def commonDenominator (p : Poly) : Nat := p.terms.foldr (fun t d => t.2.den.lcm d) 1

/-- The greatest common divisor of the numerators over the common denominator. -/
def commonNumerator (p : Poly) : Nat :=
  let d := p.commonDenominator
  p.terms.foldr (fun t g => (t.2.num.natAbs * (d / t.2.den)).gcd g) 0

/-- The rational that makes the coefficients coprime integers and the leading one
positive. -/
def normalizer (p : Poly) : Rat :=
  let factor := mkRat p.commonDenominator p.commonNumerator
  if p.leadingCoeff < 0 then -factor else factor

/-- The canonical associate: coprime integer coefficients, the leading one positive. -/
def normalized (p : Poly) : Poly := if p.isZero then zero else p.scale p.normalizer

/-! ## Order and text -/

/-- Terms compare by their monomials and then by their coefficients. -/
def termCmp (s t : Monomial × Rat) : Ordering := (s.1.cmp t.1).then (compareRat s.2 t.2)

instance : Std.TransCmp termCmp := transCmp_then

instance : Std.LawfulEqCmp termCmp := lawfulEqCmp_then

/-- The order of the listed terms, read as words. -/
def cmp (p q : Poly) : Ordering := List.compareLex termCmp p.listed q.listed

theorem listed_perm (p : Poly) : p.listed.Perm p.terms := List.mergeSort_perm _ _

/-- The listed terms determine the polynomial. -/
theorem ext_listed {p q : Poly} (h : p.listed = q.listed) : p = q := by
  have hperm : p.terms.Perm q.terms := p.listed_perm.symm.trans (h ▸ q.listed_perm)
  have hcoeffs : p.coeffs = q.coeffs := FinSupp.ext_mem fun e => hperm.mem_iff
  obtain ⟨f⟩ := p
  obtain ⟨g⟩ := q
  cases (show f = g from hcoeffs)
  rfl

instance : Std.TransCmp cmp where
  eq_swap := Std.OrientedCmp.eq_swap (α := List (Monomial × Rat))
  isLE_trans := Std.TransCmp.isLE_trans (α := List (Monomial × Rat))

instance : Std.LawfulEqCmp cmp where
  compare_self := Std.ReflCmp.compare_self (α := List (Monomial × Rat))
  eq_of_compare h := ext_listed (Std.LawfulEqCmp.eq_of_compare (α := List (Monomial × Rat)) h)

/-- A term without its sign. -/
def renderMagnitude (t : Monomial × Rat) : String :=
  let c := t.2.abs
  if t.1.isOne then renderRat c
  else if c = 1 then t.1.render
  else renderRat c ++ "*" ++ t.1.render

/-- A term that others precede. -/
def renderNext (t : Monomial × Rat) : String :=
  (if t.2 < 0 then " - " else " + ") ++ renderMagnitude t

/-- The order of writing: the larger total degree first, then the lexicographically larger
monomial. -/
def writtenBefore (s t : UInt32 × Monomial × Rat) : Bool :=
  ((compare t.1 s.1).then (t.2.1.lexCmp s.2.1)).isLE

/-- The terms in the order of writing.  Degrees are formed only where there are terms to
compare. -/
def written (p : Poly) : Machine (List (Monomial × Rat)) := do
  if p.size < 2 then return p.terms
  let ts ← p.terms.mapM fun t => do return (← t.1.degree, t)
  return (ts.mergeSort writtenBefore).map Prod.snd

/-- The text of a polynomial, such as `x**2 + 2*x*y - 1/2`. -/
def render (p : Poly) : Machine String := do
  match ← p.written with
  | [] => return "0"
  | t :: ts =>
    return (if t.2 < 0 then "-" else "") ++ renderMagnitude t ++ String.join (ts.map renderNext)

end Poly
end Meadow.Stored
