import Meadow.Monomial.Order

set_option autoImplicit false

/-!
# Polynomials

A polynomial with rational coefficients is the finitely supported function from
monomials to its coefficients, listed from the lexicographically largest monomial
downwards, so that the leading term is the first one.  Two polynomials are equal
exactly when all their coefficients are (`Poly.ext_coeff`).
-/

namespace Meadow

/-- A polynomial in named variables with rational coefficients. -/
structure Poly where
  coeffs : FinSupp Monomial Rat (descending Monomial.lexCmp) 0
  deriving DecidableEq

namespace Poly

/-! ## Reading -/

/-- The coefficient of a monomial, zero if it does not occur. -/
def coeff (p : Poly) (m : Monomial) : Rat := p.coeffs.get m

/-- Two polynomials with the same coefficients are equal. -/
theorem ext_coeff {p q : Poly} (h : ∀ m, p.coeff m = q.coeff m) : p = q := by
  obtain ⟨f⟩ := p
  obtain ⟨g⟩ := q
  cases FinSupp.ext_get h
  rfl

/-- The terms, the lexicographically largest monomial first. -/
def terms (p : Poly) : List (Monomial × Rat) := p.coeffs.entries

/-- The number of terms. -/
def size (p : Poly) : Nat := p.terms.length

/-- The term of the lexicographically largest monomial. -/
def leadingTerm? (p : Poly) : Option (Monomial × Rat) := p.terms.head?

/-- The coefficient of the lexicographically largest monomial; zero for the zero
polynomial. -/
def leadingCoeff (p : Poly) : Rat :=
  match p.leadingTerm? with
  | some t => t.2
  | none => 0

def isZero (p : Poly) : Bool := p.terms.isEmpty

/-- Is the empty product the only monomial, if there is any? -/
def isConstant (p : Poly) : Bool := p.terms.all fun t => t.1.isOne

/-- The value of a constant polynomial. -/
def constantValue? (p : Poly) : Option Rat :=
  if p.isConstant then some (p.coeff .one) else none

/-- Is this the constant one? -/
def isOne (p : Poly) : Bool :=
  match p.constantValue? with
  | some c => decide (c = 1)
  | none => false

/-- The name of the variable that this polynomial is, if it is just a variable. -/
def asVariable? (p : Poly) : Option String :=
  match p.terms with
  | [(m, c)] =>
    match m.powers with
    | [(v, 1)] => if c = 1 then some v else none
    | _ => none
  | _ => none

/-- The largest degree of a term. -/
def totalDegree (p : Poly) : Nat := p.terms.foldr (fun t d => max t.1.degree d) 0

/-- The largest exponent of a variable. -/
def degreeIn (p : Poly) (v : String) : Nat := p.terms.foldr (fun t d => max (t.1.exponent v) d) 0

/-- The least monomial that every monomial of the polynomial divides: each
variable has the polynomial's degree in it as its exponent. -/
def degrees (p : Poly) : Monomial := p.terms.foldr (fun t d => t.1.lcm d) .one

/-- The names of the variables that occur, in increasing order. -/
def vars (p : Poly) : List String := p.degrees.vars

/-- The largest monomial that divides every term; the empty product for the zero
polynomial. -/
def monomialContent (p : Poly) : Monomial :=
  match p.terms with
  | [] => .one
  | t :: ts => ts.foldl (fun m u => m.gcd u.1) t.1

/-! ## Building -/

def zero : Poly := ⟨.empty⟩

instance : Inhabited Poly := ⟨zero⟩

/-- A single term; zero if the coefficient is. -/
def monomial (m : Monomial) (c : Rat) : Poly := ⟨.single m c⟩

/-- A constant polynomial. -/
def constant (c : Rat) : Poly := monomial .one c

def one : Poly := constant 1

/-- The polynomial that is a single variable. -/
def var (v : String) : Poly := monomial (.power v 1) 1

/-! ## Arithmetic -/

def add (p q : Poly) : Poly := ⟨p.coeffs.merge (· + ·) q.coeffs⟩

/-- Multiply every coefficient by a rational. -/
def scale (c : Rat) (p : Poly) : Poly := ⟨p.coeffs.mapVals fun _ a => c * a⟩

def neg (p : Poly) : Poly := p.scale (-1)

def sub (p q : Poly) : Poly := p.add q.neg

/-- Multiply by a single term.  Multiplying all monomials by the same one keeps
their order, so the terms stay sorted. -/
def mulTerm (m : Monomial) (c : Rat) (p : Poly) : Poly :=
  ⟨(p.coeffs.mapKeys (fun k => k.mul m) (Monomial.mul_descending_lt m)).mapVals fun _ a => c * a⟩

def mul (p q : Poly) : Poly := p.terms.foldr (fun t acc => (q.mulTerm t.1 t.2).add acc) zero

def pow (p : Poly) : Nat → Poly
  | 0 => one
  | n + 1 => (p.pow n).mul p

/-- Add a term; the monomial may occur already. -/
def addTerm (p : Poly) (m : Monomial) (c : Rat) : Poly := (monomial m c).add p

/-- The sum of a list of terms, in any order and with any repetition. -/
def ofTerms (ts : List (Monomial × Rat)) : Poly :=
  ts.foldr (fun t acc => (monomial t.1 t.2).add acc) zero

/-! ## One variable singled out -/

/-- The coefficient of a power of a variable, itself free of that variable. -/
def coefficientIn (p : Poly) (v : String) (i : Nat) : Poly :=
  ofTerms ((p.terms.filter fun t => t.1.exponent v == i).map fun t => (t.1.without v, t.2))

/-- The powers of a variable that occur, the highest first, each with its
coefficient: the polynomial as one in this variable alone. -/
def expandIn (p : Poly) (v : String) : FinSupp Nat Poly (descending compare) zero :=
  p.terms.foldr
    (fun t acc =>
      (FinSupp.single (t.1.exponent v) (monomial (t.1.without v) t.2)).merge add acc)
    .empty

/-- All coefficients of the powers of a variable, the power zero first. -/
def coefficientsIn (p : Poly) (v : String) : List Poly :=
  (List.range (p.degreeIn v + 1)).map (p.coefficientIn v)

/-- The coefficient of the highest power of a variable. -/
def leadingCoefficientIn (p : Poly) (v : String) : Poly := p.coefficientIn v (p.degreeIn v)

/-- Put zero for a variable. -/
def substituteZero (p : Poly) (v : String) : Poly :=
  ⟨p.coeffs.filter fun m => m.exponent v == 0⟩

/-- The partial derivative with respect to a variable. -/
def derivative (p : Poly) (v : String) : Poly :=
  ofTerms ((p.terms.filter fun t => t.1.exponent v != 0).map fun t =>
    ((t.1.without v).mul (.power v (t.1.exponent v - 1)), t.2 * (t.1.exponent v : Rat)))

/-- Divide every term by a monomial, if it divides all of them. -/
def divMonomial? (p : Poly) (m : Monomial) : Option Poly :=
  (p.terms.mapM fun t : Monomial × Rat => (t.1.divide? m).map fun k => (k, t.2)).map ofTerms

/-! ## Canonical associates -/

/-- The least common multiple of the denominators. -/
def commonDenominator (p : Poly) : Nat := p.terms.foldr (fun t d => t.2.den.lcm d) 1

/-- The greatest common divisor of the numerators over the common denominator. -/
def commonNumerator (p : Poly) : Nat :=
  let d := p.commonDenominator
  p.terms.foldr (fun t g => (t.2.num.natAbs * (d / t.2.den)).gcd g) 0

/-- The rational that makes the coefficients coprime integers and the leading one
positive. -/
def normalizer (p : Poly) : Rat :=
  let factor := mkRat p.commonDenominator p.commonNumerator
  if p.leadingCoeff < 0 then -factor else factor

/-- The canonical associate: coprime integer coefficients, the leading one
positive.  A constant other than zero becomes one, and zero stays zero. -/
def normalized (p : Poly) : Poly := if p.isZero then zero else p.scale p.normalizer

/-! ## Coefficients of the results -/

@[simp] theorem coeff_zero (m : Monomial) : zero.coeff m = 0 := rfl

@[simp] theorem coeff_monomial (m n : Monomial) (c : Rat) :
    (monomial m c).coeff n = if m = n then c else 0 :=
  FinSupp.get_single m n c

@[simp] theorem coeff_add (p q : Poly) (m : Monomial) :
    (p.add q).coeff m = p.coeff m + q.coeff m :=
  FinSupp.get_merge Rat.zero_add Rat.add_zero p.coeffs q.coeffs m

@[simp] theorem coeff_scale (c : Rat) (p : Poly) (m : Monomial) :
    (p.scale c).coeff m = c * p.coeff m :=
  FinSupp.get_mapVals p.coeffs (h := fun _ a => c * a) (Rat.mul_zero c)

@[simp] theorem coeff_neg (p : Poly) (m : Monomial) : p.neg.coeff m = -p.coeff m := by
  rw [neg, coeff_scale, Rat.neg_mul, Rat.one_mul]

@[simp] theorem coeff_sub (p q : Poly) (m : Monomial) :
    (p.sub q).coeff m = p.coeff m - q.coeff m := by
  rw [sub, coeff_add, coeff_neg, Rat.sub_eq_add_neg]

/-- A list of terms is summed by adding one after the other. -/
theorem ofTerms_cons (t : Monomial × Rat) (ts : List (Monomial × Rat)) :
    ofTerms (t :: ts) = (ofTerms ts).addTerm t.1 t.2 := rfl

@[simp] theorem coeff_substituteZero (p : Poly) (v : String) (m : Monomial) :
    (p.substituteZero v).coeff m = if m.exponent v = 0 then p.coeff m else 0 := by
  rw [coeff, substituteZero, FinSupp.get_filter]
  by_cases h : m.exponent v = 0 <;> simp [h, coeff]

end Poly
end Meadow
