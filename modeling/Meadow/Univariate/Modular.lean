set_option autoImplicit false

/-!
# Polynomials modulo a prime

A polynomial in one variable over the integers modulo a prime `p` is the list of
its coefficients, the constant one first, each below `p` and the last one not
zero.  Coefficients are added and multiplied in machine words; as `p` stays below
`primeLimit`, no sum or product of two of them leaves a word.

Sums and products are built from the constant coefficient up, a leading zero
being dropped as it would arise (`ModPoly.cons`); division works from the leading
coefficient down.
-/

namespace Meadow

/-! ## Powers by repeated squaring

One definition serves residues, polynomials modulo a prime and integers modulo a
prime power: the digits of the exponent are read from the highest down, each one
squaring what has been found and, where it is set, multiplying by the base. -/

/-- The binary digits of a number, the highest first. -/
def binaryDigits (n : Nat) : List Bool := (List.range (n.log2 + 1)).reverse.map n.testBit

/-- `base` to the power `n`, for a multiplication `mul` with unit `one`. -/
def powerBy {α : Type} (mul : α → α → α) (one base : α) (n : Nat) : α :=
  (binaryDigits n).foldl
    (fun acc digit =>
      let square := mul acc acc
      if digit then mul square base else square)
    one

/-! ## Residues -/

/-- Primes are looked for below this bound. -/
def primeLimit : Nat := Nat.pow 2 20

namespace Residue

def add (p a b : Nat) : Nat := ((a.toUInt64 + b.toUInt64) % p.toUInt64).toNat

def sub (p a b : Nat) : Nat := ((a.toUInt64 + p.toUInt64 - b.toUInt64) % p.toUInt64).toNat

def mul (p a b : Nat) : Nat := (a.toUInt64 * b.toUInt64 % p.toUInt64).toNat

/-- `c + a * b`. -/
def addMul (p c a b : Nat) : Nat :=
  ((c.toUInt64 + a.toUInt64 * b.toUInt64) % p.toUInt64).toNat

/-- `c - a * b`. -/
def subMul (p c a b : Nat) : Nat := sub p c (mul p a b)

/-- The inverse of a residue other than zero: modulo a prime, the power `p - 2`. -/
def inverse (p a : Nat) : Nat := powerBy (mul p) 1 (a % p) (p - 2)

end Residue

/-! ## Polynomials -/

/-- Coefficients modulo a prime, the constant one first. -/
abbrev ModPoly := List Nat

namespace ModPoly

/-- Put a constant coefficient under a polynomial times the variable. -/
def cons (c : Nat) : ModPoly → ModPoly
  | [] => if c = 0 then [] else [c]
  | d :: ds => c :: d :: ds

/-- Drop leading zeros. -/
def trim (cs : List Nat) : ModPoly := cs.foldr cons []

/-- The degree of a polynomial other than zero. -/
def degree (a : ModPoly) : Nat := a.length - 1

/-- The residues of integer coefficients. -/
def ofInts (p : Nat) (cs : List Int) : ModPoly := trim (cs.map fun c => (c % (p : Int)).toNat)

/-- The variable. -/
def X : ModPoly := [0, 1]

/-- The constant one. -/
def one : ModPoly := [1]

def add (p : Nat) : ModPoly → ModPoly → ModPoly
  | [], b => b
  | a, [] => a
  | x :: a, y :: b => cons (Residue.add p x y) (add p a b)

def sub (p : Nat) : ModPoly → ModPoly → ModPoly
  | [], [] => []
  | [], y :: b => cons (Residue.sub p 0 y) (sub p [] b)
  | x :: a, [] => x :: a
  | x :: a, y :: b => cons (Residue.sub p x y) (sub p a b)

def scale (p c : Nat) (a : ModPoly) : ModPoly := trim (a.map (Residue.mul p c))

/-- `c + x * b`, for a residue `x`. -/
def addScaled (p x : Nat) : ModPoly → ModPoly → ModPoly
  | [], c => c
  | y :: b, [] => cons (Residue.mul p x y) (addScaled p x b [])
  | y :: b, z :: c => cons (Residue.addMul p z x y) (addScaled p x b c)

/-- `c - x * b`, for a residue `x` and `b` no longer than `c`. -/
def subScaled (p x : Nat) : ModPoly → ModPoly → ModPoly
  | [], c => c
  | _ :: _, [] => []
  | y :: b, z :: c => cons (Residue.subMul p z x y) (subScaled p x b c)

def mul (p : Nat) (a b : ModPoly) : ModPoly :=
  a.foldr (fun x acc => addScaled p x b (cons 0 acc)) []

/-- Quotient and remainder of the division by `b`, whose leading coefficient has
the inverse `inv`.  One more coefficient `c` of the dividend makes the remainder
`c + X * r`; when that reaches the degree of `b`, its leading coefficient is
cancelled. -/
def divRemBy (p inv : Nat) (b : ModPoly) (a : ModPoly) : ModPoly × ModPoly :=
  a.foldr
    (fun c qr =>
      let r := cons c qr.2
      if r.length < b.length then (cons 0 qr.1, r)
      else
        let x := Residue.mul p (r.getLastD 0) inv
        (cons x qr.1, subScaled p x b r))
    ([], [])

/-- Quotient and remainder.  Division by zero leaves everything over. -/
def divRem (p : Nat) (a b : ModPoly) : ModPoly × ModPoly :=
  match b.getLast? with
  | none => ([], a)
  | some lead => divRemBy p (Residue.inverse p lead) b a

def div (p : Nat) (a b : ModPoly) : ModPoly := (divRem p a b).1

def rem (p : Nat) (a b : ModPoly) : ModPoly := (divRem p a b).2

/-- The multiple with the leading coefficient one. -/
def monic (p : Nat) (a : ModPoly) : ModPoly :=
  match a.getLast? with
  | none => []
  | some lead => scale p (Residue.inverse p lead) a

/-- Division with remainder until none is left; every remainder is shorter than
the one before. -/
def gcdSteps (p : Nat) : Nat → ModPoly → ModPoly → ModPoly
  | 0, a, _ => a
  | steps + 1, a, b => if b.isEmpty then a else gcdSteps p steps b (rem p a b)

/-- The monic greatest common divisor. -/
def gcd (p : Nat) (a b : ModPoly) : ModPoly := monic p (gcdSteps p (b.length + 1) a b)

/-- The derivative of `X^(i-1) * a`, over `X^(i-1)`. -/
def derivativeFrom (p : Nat) : Nat → ModPoly → ModPoly
  | _, [] => []
  | i, c :: cs => cons (Residue.mul p (i % p) c) (derivativeFrom p (i + 1) cs)

def derivative (p : Nat) (a : ModPoly) : ModPoly := derivativeFrom p 1 a.tail

def mulMod (p : Nat) (m a b : ModPoly) : ModPoly := rem p (mul p a b) m

/-- `base` to the power `n` modulo `m`. -/
def powMod (p : Nat) (base : ModPoly) (n : Nat) (m : ModPoly) : ModPoly :=
  powerBy (mulMod p m) (rem p one m) (rem p base m) n

/-- A remainder with the factors that make it of the two starting polynomials. -/
structure Combination where
  value : ModPoly
  left : ModPoly
  right : ModPoly

/-- Division with remainder that keeps track of the factors. -/
def bezoutSteps (p : Nat) : Nat → Combination → Combination → Combination
  | 0, a, _ => a
  | steps + 1, a, b =>
    if b.value.isEmpty then a
    else
      let ⟨q, r⟩ := divRem p a.value b.value
      bezoutSteps p steps b
        ⟨r, sub p a.left (mul p q b.left), sub p a.right (mul p q b.right)⟩

/-- Factors `(s, t)` with `s * a + t * b = 1`, for coprime `a` and `b`. -/
def bezout (p : Nat) (a b : ModPoly) : ModPoly × ModPoly :=
  let c := bezoutSteps p (b.length + 1) ⟨a, one, []⟩ ⟨b, [], one⟩
  let inv := Residue.inverse p (c.value.headD 1)
  (scale p inv c.left, scale p inv c.right)

end ModPoly
end Meadow
