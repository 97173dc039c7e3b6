import Meadow.Stored.Poly

set_option autoImplicit false

/-!
# Division of stored polynomials

Exact division, greatest common divisors and the decomposition into squarefree parts, as
loops and recursions without a bound: none of them counts beforehand how often it will turn.
-/

namespace Meadow.Stored.Poly

/-! ## Exact division -/

/-- Cancel leading terms of `r` by multiples of `b`, whose leading term is `lead`, for as long
as there is one; the multipliers so far are the terms `q`, the last one first. -/
def cancelLeading (b : Poly) (lead : Monomial × Rat) (r : Poly) (q : List (Monomial × Rat)) :
    Machine (Option Poly) := do
  match r.leadingTerm? with
  | none => return some (ofTerms q.reverse)
  | some t =>
    match t.1.divide? lead.1 with
    | none => return none
    | some m =>
      let c := t.2 / lead.2
      b |>.cancelLeading lead (r.sub (← b.mulTerm m c)) ((m, c) :: q)
partial_fixpoint

/-- The quotient `a / b`; nothing if `b` is zero or does not divide `a`. -/
def divExact? (a b : Poly) : Machine (Option Poly) :=
  match b.leadingTerm? with
  | none => return none
  | some lead => cancelLeading b lead a []

/-! ## Greatest common divisors -/

/-- Cancel the highest power of a variable in `r` by a multiple of `g`, after multiplying `r`
by the leading coefficient of `g`, until the degree is below that of `g`. -/
def pseudoRemainder (v : String) (g r : Poly) : Machine Poly := do
  if r.isZero || decide (r.degreeIn v < g.degreeIn v) then return r
  let shift := monomial (.power v (r.degreeIn v - g.degreeIn v)) 1
  let raised ← (g.leadingCoefficientIn v).mul r
  let multiple ← (← (r.leadingCoefficientIn v).mul shift).mul g
  g |>.pseudoRemainder v (raised.sub multiple)
partial_fixpoint

/-- The first name in two polynomials. -/
def firstVar? (a b : Poly) : Option String := (FinSet.union a.nameSet b.nameSet).toList.head?

mutual

/-- The greatest common divisor, as its canonical associate. -/
def gcd (a b : Poly) : Machine Poly := do
  if a.isZero then return b.normalized
  if b.isZero then return a.normalized
  if a.isConstant || b.isConstant then return one
  match firstVar? a b with
  | none => return one
  | some v =>
    if a.degreeIn v = 0 then a |>.gcd (← b |>.content v)
    else if b.degreeIn v = 0 then (← a |>.content v) |>.gcd b
    else
      let (contentA, primitiveA) ← a |>.splitContent v
      let (contentB, primitiveB) ← b |>.splitContent v
      let c ← contentA |>.gcd contentB
      let p ←
        if primitiveA.degreeIn v < primitiveB.degreeIn v then
          primitiveB |>.primitiveRemainders v primitiveA
        else primitiveA |>.primitiveRemainders v primitiveB
      return (← c.mul p).normalized
partial_fixpoint

/-- The greatest common divisor of the coefficients over a variable. -/
def content (p : Poly) (v : String) : Machine Poly :=
  (p.nonzeroCoefficientsIn v).foldlM
    (fun acc c => if acc.isOne then pure acc else acc |>.gcd c) zero
partial_fixpoint

/-- Split a polynomial into its content over a variable and the primitive part. -/
def splitContent (p : Poly) (v : String) : Machine (Poly × Poly) := do
  let c ← p |>.content v
  if c.isZero || c.isOne then return (one, p)
  return (c, (← p.divExact? c).getD p)
partial_fixpoint

/-- Follow the pseudo-remainders of two polynomials that are primitive over a variable, down to
one that is zero or free of it. -/
def primitiveRemainders (v : String) (f h : Poly) : Machine Poly := do
  let r ← pseudoRemainder v h f
  if r.isZero then return (← h |>.splitContent v).2.normalized
  if r.degreeIn v = 0 then return one
  h |>.primitiveRemainders v (← r |>.splitContent v).2
partial_fixpoint

end

/-! ## Squarefree decomposition -/

/-- The parts from multiplicity `k` on, for so many rounds at most, where `b` is their product
and `d` belongs to it. -/
def squarefreeRounds (v : String) :
    Nat → UInt32 → Poly → Poly → Machine (List (Poly × UInt32))
  | 0, k, b, _ => return if b.degreeIn v = 0 then [] else [(b, k)]
  | rounds + 1, k, b, d => do
    if b.degreeIn v = 0 then return []
    let a ← gcd b d
    let part := if a.degreeIn v = 0 then [] else [(a, k)]
    match ← b.divExact? a, ← d.divExact? a with
    | some b', some c' =>
      let d' := c'.sub (← b'.derivative v)
      return part ++ (← squarefreeRounds v rounds (← Machine.add k 1) b' d')
    | _, _ => return part ++ [(b, k)]

/-- The squarefree parts of a polynomial that is primitive over a variable, each with its
multiplicity. -/
def squarefreeParts (p : Poly) (v : String) : Machine (List (Poly × UInt32)) := do
  let p' ← p.derivative v
  let a ← gcd p p'
  match ← p.divExact? a, ← p'.divExact? a with
  | some b, some c =>
    let d := c.sub (← b.derivative v)
    let rounds ← Machine.add (p.degreeIn v) 1
    squarefreeRounds v rounds.toNat 1 b d
  | _, _ => return [(p, 1)]

end Meadow.Stored.Poly
