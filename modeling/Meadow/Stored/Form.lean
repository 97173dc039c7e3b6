import Meadow.Stored.Factor

set_option autoImplicit false

/-!
# Stored forms

Standard meadow forms over stored polynomials, with their arithmetic and their text.
-/

namespace Meadow.Stored

/-- A value in standard meadow form, as it is stored. -/
inductive Form where
  /-- A polynomial. -/
  | poly (p : Poly)
  /-- The quotient `num / den`. -/
  | frac (num den : Poly)
  /-- `nonzero` where `condition` is not zero, and `zero` where it is. -/
  | cond (condition : Poly) (nonzero zero : Form)
  deriving DecidableEq

namespace Form

def zero : Form := poly .zero

instance : Inhabited Form := ⟨zero⟩

/-- The polynomial that this form is, if it is one. -/
def asPoly? : Form → Option Poly
  | poly p => some p
  | _ => none

def isZero : Form → Bool
  | poly p => p.isZero
  | _ => false

def isOne : Form → Bool
  | poly p => p.isOne
  | _ => false

def isConstant : Form → Bool
  | poly p => p.isConstant
  | _ => false

/-- The variables of all polynomials in the form. -/
def varSet : Form → FinSet String compare
  | poly p => p.nameSet
  | frac n d => .union n.nameSet d.nameSet
  | cond c t e => .union c.nameSet (.union t.varSet e.varSet)

/-- The names of the variables that occur, in increasing order. -/
def vars (f : Form) : List String := f.varSet.toList

/-! ## Quotients and conditionals -/

/-- The quotient `num / den`: zero if either is, and a polynomial if `den` is constant. -/
def quotient (num den : Poly) : Form :=
  if num.isZero || den.isZero then zero
  else
    match den.constantValue? with
    | some c => poly (num.scale c⁻¹)
    | none => frac num den

/-- The branch for a condition other than zero, when it is taken under that very condition. -/
def underNonzero (c : Poly) : Form → Form
  | cond c' t e => if c' = c then t else cond c' t e
  | f => f

/-- The branch for a zero condition, when it is taken under that very condition. -/
def underZero (c : Poly) : Form → Form
  | cond c' t e => if c' = c then e else cond c' t e
  | frac n d => if n = c ∨ d = c then zero else frac n d
  | poly p => if p = c then zero else poly p

/-- A conditional on a condition that is a radical, left out when both branches are the same or
the condition is constant. -/
def select (c : Poly) (t e : Form) : Form :=
  let t := underNonzero c t
  let e := underZero c e
  if t = e then t
  else if c.isZero then e
  else if c.isConstant then t
  else cond c t e

/-- A conditional on the radical of `c`. -/
def branch (c : Poly) (t e : Form) : Machine Form := return select (← c.radical) t e

/-! ## Negation -/

def neg : Form → Machine Form
  | poly p => return poly p.neg
  | frac n d => return quotient n.neg d
  | cond c t e => do branch c (← t.neg) (← e.neg)

/-! ## Sums -/

/-- The sum of a polynomial other than zero and a form. -/
def addPoly (p : Poly) : Form → Machine Form
  | poly q => return poly (p.add q)
  | frac n d => do branch d (quotient ((← p.mul d).add n) d) (poly p)
  | cond c t e => do branch c (← addPoly p t) (← addPoly p e)

/-- The sum of the quotient `n / d` and a form. -/
def addFrac (n d : Poly) : Form → Machine Form
  | poly q => if q.isZero then return frac n d else addPoly q (frac n d)
  | frac n' d' =>
    if d = d' then return quotient (n.add n') d
    else do
      let num := (← n.mul d').add (← d.mul n')
      let den ← d.mul d'
      branch d (← branch d' (quotient num den) (frac n d)) (frac n' d')
  | cond c t e => do
    if d = c then branch c (← addFrac n d t) e
    else
      let t' ← branch d (← addFrac n d t) t
      let e' ← branch d (← addFrac n d e) e
      branch c t' e'

def add : Form → Form → Machine Form
  | poly p, b => if p.isZero then return b else addPoly p b
  | frac n d, b => addFrac n d b
  | cond c t e, b =>
    match b with
    | poly q => if q.isZero then return cond c t e else addPoly q (cond c t e)
    | frac n d => addFrac n d (cond c t e)
    | cond c' t' e' => do
      if c = c' then branch c (← add t t') (← add e e')
      else branch c (← add t (cond c' t' e')) (← add e (cond c' t' e'))

def sub (a b : Form) : Machine Form := do
  if a.isZero then b.neg else if b.isZero then return a else a.add (← b.neg)

/-! ## Products -/

/-- The product of a polynomial other than zero and one with a form. -/
def mulPoly (p : Poly) : Form → Machine Form
  | poly q => return poly (← p.mul q)
  | frac n d => return quotient (← p.mul n) d
  | cond c t e => do branch c (← mulPoly p t) (← mulPoly p e)

/-- The product of the quotient `n / d` with a form. -/
def mulFrac (n d : Poly) : Form → Machine Form
  | poly q =>
    if q.isZero then return zero
    else if q.isOne then return frac n d
    else return quotient (← q.mul n) d
  | frac n' d' => return quotient (← n.mul n') (← d.mul d')
  | cond c t e => do
    let e' ← if d = c then pure zero else mulFrac n d e
    branch c (← mulFrac n d t) e'

def mul : Form → Form → Machine Form
  | poly p, b => if p.isZero then return zero else if p.isOne then return b else mulPoly p b
  | frac n d, b => mulFrac n d b
  | cond c t e, b =>
    match b with
    | poly q =>
      if q.isZero then return zero
      else if q.isOne then return cond c t e
      else mulPoly q (cond c t e)
    | frac n d => mulFrac n d (cond c t e)
    | cond c' t' e' => do
      if c = c' then branch c (← mul t t') (← mul e e')
      else branch c (← mul t (cond c' t' e')) (← mul e (cond c' t' e'))

/-! ## Quotients of forms -/

/-- The quotient of a polynomial by a form. -/
def divPoly (p : Poly) : Form → Machine Form
  | poly q => return quotient p q
  | frac n d => return quotient (← p.mul d) n
  | cond c t e => do branch c (← divPoly p t) (← divPoly p e)

/-- The quotient of `n / d` by a form. -/
def divFrac (n d : Poly) : Form → Machine Form
  | poly q =>
    if q.isZero then return zero
    else if q.isOne then return frac n d
    else return quotient n (← d.mul q)
  | frac n' d' => return quotient (← n.mul d') (← d.mul n')
  | cond c t e => do
    let e' ← if d = c then pure zero else divFrac n d e
    branch c (← divFrac n d t) e'

def div : Form → Form → Machine Form
  | poly p, b => if p.isZero then return zero else divPoly p b
  | frac n d, b => divFrac n d b
  | cond c t e, b => do
    if b.isZero then return zero
    else if b.isOne then return cond c t e
    else
      match b with
      | cond c' t' e' =>
        if c = c' then branch c (← div t t') (← div e e')
        else branch c (← div t b) (← div e b)
      | _ => branch c (← div t b) (← div e b)

end Form

/-! ## The text -/

/-- A polynomial as a part of a form. -/
def Poly.renderFactored (p : Poly) : Machine String := do
  if p.isConstant then p.render else return "(" ++ (← (← p.factorize).render) ++ ")"

/-- The text of a form, such as `(((x)/(x)) * 1 + (1 - (x)/(x)) * 0)`. -/
def Form.render : Form → Machine String
  | .poly p => p.renderFactored
  | .frac n d => return "(" ++ (← n.renderFactored) ++ " / " ++ (← d.renderFactored) ++ ")"
  | .cond c t e => do
    let c ← c.renderFactored
    return "((" ++ c ++ "/" ++ c ++ ") * " ++ (← t.render) ++ " + (1 - " ++ c ++ "/" ++ c ++
      ") * " ++ (← e.render) ++ ")"

end Meadow.Stored
