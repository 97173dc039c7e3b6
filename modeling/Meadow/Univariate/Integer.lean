set_option autoImplicit false

/-!
# Integer polynomials in one variable

A polynomial is the list of its integer coefficients, the constant one first and
the last one not zero.
-/

namespace Meadow

/-- Integer coefficients, the constant one first. -/
abbrev IntPoly := List Int

namespace IntPoly

/-- Put a constant coefficient under a polynomial times the variable. -/
def cons (c : Int) : IntPoly → IntPoly
  | [] => if c = 0 then [] else [c]
  | d :: ds => c :: d :: ds

/-- Drop leading zeros. -/
def trim (cs : List Int) : IntPoly := cs.foldr cons []

/-- The degree of a polynomial other than zero. -/
def degree (a : IntPoly) : Nat := a.length - 1

/-- The leading coefficient; zero for the zero polynomial. -/
def lead (a : IntPoly) : Int := a.getLastD 0

def add : IntPoly → IntPoly → IntPoly
  | [], b => b
  | a, [] => a
  | x :: a, y :: b => cons (x + y) (add a b)

def scale (c : Int) (a : IntPoly) : IntPoly := trim (a.map (c * ·))

def sub (a b : IntPoly) : IntPoly := add a (b.map (- ·))

/-- `c + x * b`, for an integer `x`. -/
def addScaled (x : Int) : IntPoly → IntPoly → IntPoly
  | [], c => c
  | y :: b, [] => cons (x * y) (addScaled x b [])
  | y :: b, z :: c => cons (z + x * y) (addScaled x b c)

def mul (a b : IntPoly) : IntPoly := a.foldr (fun x acc => addScaled x b (cons 0 acc)) []

/-- One step of a division from the leading coefficient down: a further
coefficient `c` of the dividend makes the remainder `c + X * r`; when that reaches
the degree of `b`, its leading coefficient has to be a multiple of that of `b`. -/
def divideStep (b : IntPoly) (c : Int) : Option (IntPoly × IntPoly) → Option (IntPoly × IntPoly)
  | none => none
  | some (q, r) =>
    let r := cons c r
    if r.length < b.length then some (cons 0 q, r)
    else if r.lead % b.lead = 0 then
      let x := r.lead / b.lead
      some (cons x q, addScaled (-x) b r)
    else none

/-- The quotient `a / b` over the integers; nothing if `b` is zero or does not
divide `a`.  A divisor's constant coefficient divides that of the dividend, which
settles most cases at once. -/
def divExact? (a b : IntPoly) : Option IntPoly :=
  if b.isEmpty || decide (a.length < b.length) then none
  else if b.headD 0 ≠ 0 ∧ a.headD 0 % b.headD 0 ≠ 0 then none
  else
    match a.foldr (divideStep b) (some ([], [])) with
    | some (q, []) => some q
    | _ => none

/-- The greatest common divisor of the coefficients. -/
def content (a : IntPoly) : Nat := a.foldr (fun c g => c.natAbs.gcd g) 0

/-- Divide out the content and make the leading coefficient positive. -/
def primitive (a : IntPoly) : IntPoly :=
  let g : Int := if a.lead < 0 then -(a.content : Int) else a.content
  if g = 0 then a else a.map (· / g)

/-- An integer above the Euclidean length of the coefficients. -/
def norm (a : IntPoly) : Nat :=
  Nat.sqrt (a.foldr (fun c s => c.natAbs * c.natAbs + s) 0) + 1

/-- The residues of the coefficients modulo `m`, from zero on. -/
def residues (m : Nat) (a : IntPoly) : IntPoly := trim (a.map (· % (m : Int)))

/-- The residues of the coefficients modulo `m` that are nearest to zero. -/
def balanced (m : Nat) (a : IntPoly) : IntPoly := trim (a.map (·.bmod m))

end IntPoly
end Meadow
