import Meadow.Form.Basic

set_option autoImplicit false

/-!
# Arithmetic of standard meadow forms

Operations go into the branches of conditionals, the left operand's first; two
conditionals on the same condition are joined branch by branch.  A sum with a
quotient is a conditional on the denominator, as the quotient is zero where its
denominator is; a product or quotient of quotients needs none.
-/

namespace Meadow.Form

/-! ## Negation -/

def neg : Form → Form
  | poly p => poly p.neg
  | frac n d => quotient n.neg d
  | cond c t e => branch c t.neg e.neg

/-! ## Sums -/

/-- The sum of a polynomial other than zero and a form. -/
def addPoly (p : Poly) : Form → Form
  | poly q => poly (p.add q)
  | frac n d => branch d (quotient ((p.mul d).add n) d) (poly p)
  | cond c t e => branch c (addPoly p t) (addPoly p e)

/-- The sum of the quotient `n / d` and a form. -/
def addFrac (n d : Poly) : Form → Form
  | poly q => if q.isZero then frac n d else addPoly q (frac n d)
  | frac n' d' =>
    if d = d' then quotient (n.add n') d
    else
      branch d
        (branch d' (quotient ((n.mul d').add (d.mul n')) (d.mul d')) (frac n d))
        (frac n' d')
  | cond c t e =>
    if d = c then branch c (addFrac n d t) e
    else branch c (branch d (addFrac n d t) t) (branch d (addFrac n d e) e)

def add : Form → Form → Form
  | poly p, b => if p.isZero then b else addPoly p b
  | frac n d, b => addFrac n d b
  | cond c t e, b =>
    match b with
    | poly q => if q.isZero then cond c t e else addPoly q (cond c t e)
    | frac n d => addFrac n d (cond c t e)
    | cond c' t' e' =>
      if c = c' then branch c (add t t') (add e e')
      else branch c (add t (cond c' t' e')) (add e (cond c' t' e'))

def sub (a b : Form) : Form :=
  if a.isZero then b.neg else if b.isZero then a else a.add b.neg

/-! ## Products -/

/-- The product of a polynomial other than zero and one with a form. -/
def mulPoly (p : Poly) : Form → Form
  | poly q => poly (p.mul q)
  | frac n d => quotient (p.mul n) d
  | cond c t e => branch c (mulPoly p t) (mulPoly p e)

/-- The product of the quotient `n / d` with a form.  Where `d` is zero, so is the
product. -/
def mulFrac (n d : Poly) : Form → Form
  | poly q =>
    if q.isZero then zero else if q.isOne then frac n d else quotient (q.mul n) d
  | frac n' d' => quotient (n.mul n') (d.mul d')
  | cond c t e => branch c (mulFrac n d t) (if d = c then zero else mulFrac n d e)

def mul : Form → Form → Form
  | poly p, b => if p.isZero then zero else if p.isOne then b else mulPoly p b
  | frac n d, b => mulFrac n d b
  | cond c t e, b =>
    match b with
    | poly q =>
      if q.isZero then zero
      else if q.isOne then cond c t e
      else mulPoly q (cond c t e)
    | frac n d => mulFrac n d (cond c t e)
    | cond c' t' e' =>
      if c = c' then branch c (mul t t') (mul e e')
      else branch c (mul t (cond c' t' e')) (mul e (cond c' t' e'))

/-! ## Quotients -/

/-- The quotient of a polynomial by a form. -/
def divPoly (p : Poly) : Form → Form
  | poly q => quotient p q
  | frac n d => quotient (p.mul d) n
  | cond c t e => branch c (divPoly p t) (divPoly p e)

/-- The quotient of `n / d` by a form.  Where `d` is zero, so is the quotient. -/
def divFrac (n d : Poly) : Form → Form
  | poly q =>
    if q.isZero then zero else if q.isOne then frac n d else quotient n (d.mul q)
  | frac n' d' => quotient (n.mul d') (d.mul n')
  | cond c t e => branch c (divFrac n d t) (if d = c then zero else divFrac n d e)

def div : Form → Form → Form
  | poly p, b => divPoly p b
  | frac n d, b => divFrac n d b
  | cond c t e, b =>
    if b.isZero then zero
    else if b.isOne then cond c t e
    else
      match b with
      | cond c' t' e' =>
        if c = c' then branch c (div t t') (div e e') else branch c (div t b) (div e b)
      | _ => branch c (div t b) (div e b)

end Meadow.Form
