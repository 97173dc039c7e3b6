import Mathlib
import Meadow.Proofs.Univariate.Modular

set_option autoImplicit false

/-!
# Arithmetic modulo a prime with checked words

The operations on words wrap around.  Here each of them is written again in words that fail
where a sum or a product leaves the word, a difference goes below zero or a remainder is taken
by zero, and the operations on polynomials are written again over these.  On well-formed lists
nothing fails, and the result is that of the plain operation, for every operation from the sum
(`ModPoly.Denotes.add?_eq`) to the factors of coprime polynomials (`ModPoly.Denotes.bezout?_eq`):
every word that occurs is a residue, and `primeLimit` leaves room for the sum of a residue and a
product of two.  With what the plain operations denote, they are those of the ring of polynomials
modulo the prime, and compute in words without overflow (`ModPoly.arithmetic_exact`).
-/

namespace Meadow

/-! ## Words -/

namespace Word

/-- The word for a number that fits one. -/
def ofNat? (a : ℕ) : Option UInt64 := if a < 2 ^ 64 then some a.toUInt64 else none

def add? (a b : UInt64) : Option UInt64 :=
  if a.toNat + b.toNat < 2 ^ 64 then some (a + b) else none

def sub? (a b : UInt64) : Option UInt64 := if b ≤ a then some (a - b) else none

def mul? (a b : UInt64) : Option UInt64 :=
  if a.toNat * b.toNat < 2 ^ 64 then some (a * b) else none

def mod? (a b : UInt64) : Option UInt64 := if b = 0 then none else some (a % b)

end Word

/-- What fails for no member of a list does not fail for the list. -/
theorem mapM_eq_some {α β : Type} {f? : α → Option β} {f : α → β} {l : List α}
    (h : ∀ x ∈ l, f? x = some (f x)) : l.mapM f? = some (l.map f) := by
  induction l with
  | nil => rfl
  | cons x l ih =>
    rw [List.mapM_cons, h x List.mem_cons_self, ih fun y hy => h y (List.mem_cons_of_mem x hy)]
    rfl

/-- A power by repeated squaring does not fail if no product does. -/
theorem powerBy_bind {α : Type} {mul? : α → α → Option α} {mul : α → α → α} {P : α → Prop}
    {one base : α} (hone : P one) (hbase : P base)
    (hmul : ∀ {x y}, P x → P y → mul? x y = some (mul x y) ∧ P (mul x y)) (n : ℕ) :
    powerBy (fun x y => do mul? (← x) (← y)) (some one) (some base) n
      = some (powerBy mul one base n) := by
  unfold powerBy
  induction binaryDigits n generalizing one with
  | nil => rfl
  | cons digit digits ih =>
    have hsquare := hmul hone hone
    cases digit with
    | false => simpa [hsquare.1] using ih hsquare.2
    | true =>
      have hproduct := hmul hsquare.2 hbase
      simpa [hsquare.1, hproduct.1] using ih hproduct.2

/-! ## Residues -/

namespace Residue

def add? (p a b : ℕ) : Option ℕ := do
  let sum ← Word.add? (← Word.ofNat? a) (← Word.ofNat? b)
  return (← Word.mod? sum (← Word.ofNat? p)).toNat

def sub? (p a b : ℕ) : Option ℕ := do
  let sum ← Word.add? (← Word.ofNat? a) (← Word.ofNat? p)
  let difference ← Word.sub? sum (← Word.ofNat? b)
  return (← Word.mod? difference (← Word.ofNat? p)).toNat

def mul? (p a b : ℕ) : Option ℕ := do
  let product ← Word.mul? (← Word.ofNat? a) (← Word.ofNat? b)
  return (← Word.mod? product (← Word.ofNat? p)).toNat

def addMul? (p c a b : ℕ) : Option ℕ := do
  let product ← Word.mul? (← Word.ofNat? a) (← Word.ofNat? b)
  let sum ← Word.add? (← Word.ofNat? c) product
  return (← Word.mod? sum (← Word.ofNat? p)).toNat

def subMul? (p c a b : ℕ) : Option ℕ := do sub? p c (← mul? p a b)

def inverse? (p a : ℕ) : Option ℕ :=
  if 2 ≤ p then powerBy (fun x y => do mul? p (← x) (← y)) (some 1) (some (a % p)) (p - 2)
  else none

section Words

variable {p a b c : ℕ} (hp : p < primeLimit)

include hp

theorem ofNat?_eq (ha : a < p) : Word.ofNat? a = some a.toUInt64 :=
  if_pos ((ha.trans hp).trans (by decide))

theorem ofNat?_modulus : Word.ofNat? p = some p.toUInt64 := if_pos (hp.trans (by decide))

theorem mod?_modulus (hpos : 0 < p) (w : UInt64) :
    Word.mod? w p.toUInt64 = some (w % p.toUInt64) := by
  refine if_neg fun h0 => ?_
  have hmodulus := toNat_toUInt64 hp
  rw [h0] at hmodulus
  exact hpos.ne hmodulus

/-- A sum with a product of residues fits a word. -/
theorem addWord?_eq {x y : UInt64} (hx : x.toNat = c) (hy : y.toNat ≤ a * b) (ha : a < p)
    (hb : b < p) (hc : c < p) : Word.add? x y = some (x + y) := by
  refine if_pos ?_
  rw [hx]
  exact (Nat.add_le_add_left hy c).trans_lt (add_mul_lt (ha.trans hp) (hb.trans hp) (hc.trans hp))

theorem mulWord?_eq (ha : a < p) (hb : b < p) :
    Word.mul? a.toUInt64 b.toUInt64 = some (a.toUInt64 * b.toUInt64) := by
  have hlt := add_mul_lt (ha.trans hp) (hb.trans hp) (c := 0) (by decide)
  refine if_pos ?_
  rwa [toNat_toUInt64 (ha.trans hp), toNat_toUInt64 (hb.trans hp), ← zero_add (a * b)]

theorem add?_eq (ha : a < p) (hb : b < p) : add? p a b = some (add p a b) := by
  have hlimit : primeLimit = 1048576 := rfl
  have hsum : Word.add? a.toUInt64 b.toUInt64 = some (a.toUInt64 + b.toUInt64) := by
    refine if_pos ?_
    rw [toNat_toUInt64 (ha.trans hp), toNat_toUInt64 (hb.trans hp)]
    omega
  simp only [add?, add, ofNat?_eq hp ha, ofNat?_eq hp hb, ofNat?_modulus hp, hsum,
    mod?_modulus hp (Nat.zero_lt_of_lt ha), Option.bind_eq_bind, Option.bind_some, Option.pure_def]

/-- The modulus is added before a residue is taken off, so nothing goes below zero. -/
theorem sub?_eq (ha : a < p) (hb : b < p) : sub? p a b = some (sub p a b) := by
  have hlimit : primeLimit = 1048576 := rfl
  have hroom : a.toUInt64.toNat + p.toUInt64.toNat < 2 ^ 64 := by
    rw [toNat_toUInt64 (ha.trans hp), toNat_toUInt64 hp]
    omega
  have hsum : Word.add? a.toUInt64 p.toUInt64 = some (a.toUInt64 + p.toUInt64) := if_pos hroom
  have hdifference : Word.sub? (a.toUInt64 + p.toUInt64) b.toUInt64
      = some (a.toUInt64 + p.toUInt64 - b.toUInt64) := by
    refine if_pos ?_
    rw [UInt64.le_iff_toNat_le, UInt64.toNat_add, Nat.mod_eq_of_lt hroom,
      toNat_toUInt64 (hb.trans hp), toNat_toUInt64 hp]
    exact hb.le.trans (Nat.le_add_left p _)
  simp only [sub?, sub, ofNat?_eq hp ha, ofNat?_eq hp hb, ofNat?_modulus hp, hsum, hdifference,
    mod?_modulus hp (Nat.zero_lt_of_lt ha), Option.bind_eq_bind, Option.bind_some, Option.pure_def]

theorem mul?_eq (ha : a < p) (hb : b < p) : mul? p a b = some (mul p a b) := by
  simp only [mul?, mul, ofNat?_eq hp ha, ofNat?_eq hp hb, ofNat?_modulus hp, mulWord?_eq hp ha hb,
    mod?_modulus hp (Nat.zero_lt_of_lt ha), Option.bind_eq_bind, Option.bind_some, Option.pure_def]

theorem addMul?_eq (hc : c < p) (ha : a < p) (hb : b < p) :
    addMul? p c a b = some (addMul p c a b) := by
  have hproduct : (a.toUInt64 * b.toUInt64).toNat ≤ a * b := by
    rw [UInt64.toNat_mul, toNat_toUInt64 (ha.trans hp), toNat_toUInt64 (hb.trans hp)]
    exact Nat.mod_le _ _
  simp only [addMul?, addMul, ofNat?_eq hp ha, ofNat?_eq hp hb, ofNat?_eq hp hc, ofNat?_modulus hp,
    mulWord?_eq hp ha hb, addWord?_eq hp (toNat_toUInt64 (hc.trans hp)) hproduct ha hb hc,
    mod?_modulus hp (Nat.zero_lt_of_lt ha), Option.bind_eq_bind, Option.bind_some, Option.pure_def]

theorem subMul?_eq (hc : c < p) (ha : a < p) (hb : b < p) :
    subMul? p c a b = some (subMul p c a b) := by
  have hmul : mul p a b < p := by
    rw [mul_eq hp ha hb]
    exact Nat.mod_lt _ (Nat.zero_lt_of_lt ha)
  simp only [subMul?, subMul, mul?_eq hp ha hb, sub?_eq hp hc hmul, Option.bind_eq_bind,
    Option.bind_some]

end Words

theorem mul_lt {p a b : ℕ} (hp : p < primeLimit) (ha : a < p) (hb : b < p) : mul p a b < p := by
  rw [mul_eq hp ha hb]
  exact Nat.mod_lt _ (Nat.zero_lt_of_lt ha)

theorem inverse?_eq {p a : ℕ} [hp : Fact p.Prime] [Fact (p < primeLimit)] :
    inverse? p a = some (inverse p a) := by
  rw [inverse?, if_pos hp.out.two_le]
  exact powerBy_bind (P := (· < p)) hp.out.one_lt (Nat.mod_lt a hp.out.pos)
    (fun hx hy => ⟨mul?_eq Fact.out hx hy, mul_lt Fact.out hx hy⟩) _

theorem inverse_lt {p : ℕ} [hp : Fact p.Prime] [Fact (p < primeLimit)] (a : ℕ) :
    inverse p a < p :=
  powerBy_of_add (R := fun _ b => b < p) hp.out.one_lt (Nat.mod_lt a hp.out.pos)
    (mul_lt Fact.out) _

end Residue

/-! ## Polynomials -/

namespace ModPoly

def add? (p : ℕ) : ModPoly → ModPoly → Option ModPoly
  | [], b => some b
  | a, [] => some a
  | x :: a, y :: b => do return cons (← Residue.add? p x y) (← add? p a b)

def sub? (p : ℕ) : ModPoly → ModPoly → Option ModPoly
  | [], [] => some []
  | [], y :: b => do return cons (← Residue.sub? p 0 y) (← sub? p [] b)
  | x :: a, [] => some (x :: a)
  | x :: a, y :: b => do return cons (← Residue.sub? p x y) (← sub? p a b)

def scale? (p c : ℕ) (a : ModPoly) : Option ModPoly := do
  return trim (← a.mapM (Residue.mul? p c))

def addScaled? (p x : ℕ) : ModPoly → ModPoly → Option ModPoly
  | [], c => some c
  | y :: b, [] => do return cons (← Residue.mul? p x y) (← addScaled? p x b [])
  | y :: b, z :: c => do return cons (← Residue.addMul? p z x y) (← addScaled? p x b c)

def subScaled? (p x : ℕ) : ModPoly → ModPoly → Option ModPoly
  | [], c => some c
  | _ :: _, [] => some []
  | y :: b, z :: c => do return cons (← Residue.subMul? p z x y) (← subScaled? p x b c)

def mul? (p : ℕ) (a b : ModPoly) : Option ModPoly :=
  a.foldrM (fun x acc => addScaled? p x b (cons 0 acc)) []

def divRemBy? (p inv : ℕ) (b : ModPoly) (a : ModPoly) : Option (ModPoly × ModPoly) :=
  a.foldrM
    (fun c qr =>
      let r := cons c qr.2
      if r.length < b.length then some (cons 0 qr.1, r)
      else do
        let x ← Residue.mul? p (r.getLastD 0) inv
        return (cons x qr.1, ← subScaled? p x b r))
    ([], [])

def divRem? (p : ℕ) (a b : ModPoly) : Option (ModPoly × ModPoly) :=
  match b.getLast? with
  | none => some ([], a)
  | some lead => do divRemBy? p (← Residue.inverse? p lead) b a

def rem? (p : ℕ) (a b : ModPoly) : Option ModPoly := do return (← divRem? p a b).2

def monic? (p : ℕ) (a : ModPoly) : Option ModPoly :=
  match a.getLast? with
  | none => some []
  | some lead => do scale? p (← Residue.inverse? p lead) a

def gcdSteps? (p : ℕ) : ℕ → ModPoly → ModPoly → Option ModPoly
  | 0, a, _ => some a
  | steps + 1, a, b => if b.isEmpty then some a else do gcdSteps? p steps b (← rem? p a b)

def gcd? (p : ℕ) (a b : ModPoly) : Option ModPoly := do
  monic? p (← gcdSteps? p (b.length + 1) a b)

def derivativeFrom? (p : ℕ) : ℕ → ModPoly → Option ModPoly
  | _, [] => some []
  | i, c :: cs => do return cons (← Residue.mul? p (i % p) c) (← derivativeFrom? p (i + 1) cs)

def derivative? (p : ℕ) (a : ModPoly) : Option ModPoly := derivativeFrom? p 1 a.tail

def mulMod? (p : ℕ) (m a b : ModPoly) : Option ModPoly := do rem? p (← mul? p a b) m

def powMod? (p : ℕ) (base : ModPoly) (n : ℕ) (m : ModPoly) : Option ModPoly :=
  powerBy (fun x y => do mulMod? p m (← x) (← y)) (rem? p one m) (rem? p base m) n

def bezoutSteps? (p : ℕ) : ℕ → Combination → Combination → Option Combination
  | 0, a, _ => some a
  | steps + 1, a, b =>
    if b.value.isEmpty then some a
    else do
      let (q, r) ← divRem? p a.value b.value
      let left ← sub? p a.left (← mul? p q b.left)
      let right ← sub? p a.right (← mul? p q b.right)
      bezoutSteps? p steps b ⟨r, left, right⟩

def bezout? (p : ℕ) (a b : ModPoly) : Option (ModPoly × ModPoly) := do
  let c ← bezoutSteps? p (b.length + 1) ⟨a, one, []⟩ ⟨b, [], one⟩
  let inv ← Residue.inverse? p (c.value.headD 1)
  return (← scale? p inv c.left, ← scale? p inv c.right)

/-! ## The checked operations return what the plain ones do -/

section

open Polynomial

variable {p c x : ℕ} {a b : ModPoly} {f g : (ZMod p)[X]} [Fact p.Prime] [Fact (p < primeLimit)]

namespace Denotes

theorem add?_eq (ha : Denotes p a f) (hb : Denotes p b g) :
    add? p a b = some (ModPoly.add p a b) := by
  induction a generalizing b f g with
  | nil => rw [ModPoly.add?, ModPoly.add]
  | cons x a ih =>
    cases b with
    | nil => rfl
    | cons y b =>
      obtain ⟨x', f, rfl, hx, ha⟩ := ha.uncons
      obtain ⟨y', g, rfl, hy, hb⟩ := hb.uncons
      rw [ModPoly.add?, Residue.add?_eq Fact.out hx.lt hy.lt, ih ha hb]
      rfl

theorem sub?_eq (ha : Denotes p a f) (hb : Denotes p b g) :
    sub? p a b = some (ModPoly.sub p a b) := by
  induction a generalizing b f g with
  | nil =>
    induction b generalizing g with
    | nil => rfl
    | cons y b ih =>
      obtain ⟨y', g, rfl, hy, hb⟩ := hb.uncons
      rw [ModPoly.sub?, Residue.sub?_eq Fact.out (NeZero.pos p) hy.lt, ih hb]
      rfl
  | cons x a ih =>
    cases b with
    | nil => rfl
    | cons y b =>
      obtain ⟨x', f, rfl, hx, ha⟩ := ha.uncons
      obtain ⟨y', g, rfl, hy, hb⟩ := hb.uncons
      rw [ModPoly.sub?, Residue.sub?_eq Fact.out hx.lt hy.lt, ih ha hb]
      rfl

omit [Fact p.Prime] in
theorem scale?_eq (hx : x < p) (ha : Denotes p a f) :
    scale? p x a = some (ModPoly.scale p x a) := by
  have hwords : a.mapM (Residue.mul? p x) = some (a.map (Residue.mul p x)) :=
    mapM_eq_some fun c hc => Residue.mul?_eq Fact.out hx (ha.lt c hc)
  rw [ModPoly.scale?, hwords]
  rfl

theorem addScaled?_eq (hx : x < p) (hb : Denotes p b g) (ha : Denotes p a f) :
    addScaled? p x b a = some (ModPoly.addScaled p x b a) := by
  induction b generalizing a f g with
  | nil => rw [ModPoly.addScaled?, ModPoly.addScaled]
  | cons y b ih =>
    obtain ⟨y', g, rfl, hy, hb⟩ := hb.uncons
    cases a with
    | nil =>
      rw [ModPoly.addScaled?, Residue.mul?_eq Fact.out hx hy.lt, ih hb denotes_nil]
      rfl
    | cons c a =>
      obtain ⟨c', f, rfl, hc, ha⟩ := ha.uncons
      rw [ModPoly.addScaled?, Residue.addMul?_eq Fact.out hc.lt hx hy.lt, ih hb ha]
      rfl

theorem subScaled?_eq (hx : x < p) (hb : Denotes p b g) (ha : Denotes p a f) :
    subScaled? p x b a = some (ModPoly.subScaled p x b a) := by
  induction b generalizing a f g with
  | nil => rw [ModPoly.subScaled?, ModPoly.subScaled]
  | cons y b ih =>
    obtain ⟨y', g, rfl, hy, hb⟩ := hb.uncons
    cases a with
    | nil => rfl
    | cons c a =>
      obtain ⟨c', f, rfl, hc, ha⟩ := ha.uncons
      rw [ModPoly.subScaled?, Residue.subMul?_eq Fact.out hc.lt hx hy.lt, ih hb ha]
      rfl

theorem mul?_eq (ha : Denotes p a f) (hb : Denotes p b g) :
    mul? p a b = some (ModPoly.mul p a b) := by
  induction a generalizing f with
  | nil => rfl
  | cons x a ih =>
    obtain ⟨x', f, rfl, hx, ha⟩ := ha.uncons
    rw [ModPoly.mul?, List.foldrM_cons, ← ModPoly.mul?, ih ha]
    exact addScaled?_eq hx.lt hb (cons Residue.denotes_zero (ha.mul hb))

theorem divRemBy?_eq (hb : Denotes p b g) (hb0 : b ≠ []) {inv : ℕ}
    (hinv : Residue.Denotes p inv g.leadingCoeff⁻¹) (ha : Denotes p a f) :
    divRemBy? p inv b a = some (ModPoly.divRemBy p inv b a) := by
  induction a generalizing f with
  | nil => rfl
  | cons c a ih =>
    obtain ⟨c', f, rfl, hc, ha⟩ := ha.uncons
    obtain ⟨q, r, -, hr, -⟩ := hb.divRemBy hb0 hinv ha
    have hr' := cons hc hr
    rw [ModPoly.divRemBy?, List.foldrM_cons, ← ModPoly.divRemBy?, ih ha, divRemBy_cons]
    dsimp only [Option.bind_eq_bind, Option.bind_some]
    split
    · rfl
    · have hx := hr'.leadingCoeff.mul hinv
      rw [Residue.mul?_eq Fact.out hr'.leadingCoeff.lt hinv.lt, Option.bind_some,
        hb.subScaled?_eq hx.lt hr']
      rfl

theorem divRem?_eq (ha : Denotes p a f) (hb : Denotes p b g) :
    divRem? p a b = some (ModPoly.divRem p a b) := by
  by_cases hb0 : b = []
  · rw [hb0]
    rfl
  · have hg : g ≠ 0 := mt hb.eq_nil_iff.2 hb0
    have hinv := (hb.getLast hb0).inverse (leadingCoeff_ne_zero.2 hg)
    rw [ModPoly.divRem?, ModPoly.divRem, List.getLast?_eq_some_getLast hb0]
    dsimp only
    rw [Residue.inverse?_eq]
    exact hb.divRemBy?_eq hb0 hinv ha

theorem rem?_eq (ha : Denotes p a f) (hb : Denotes p b g) :
    rem? p a b = some (ModPoly.rem p a b) := by
  rw [ModPoly.rem?, ha.divRem?_eq hb]
  rfl

theorem monic?_eq (ha : Denotes p a f) : monic? p a = some (ModPoly.monic p a) := by
  by_cases ha0 : a = []
  · rw [ha0]
    rfl
  · have hinv := (ha.getLast ha0).inverse (leadingCoeff_ne_zero.2 (mt ha.eq_nil_iff.2 ha0))
    rw [ModPoly.monic?, ModPoly.monic, List.getLast?_eq_some_getLast ha0]
    dsimp only
    rw [Residue.inverse?_eq]
    exact scale?_eq hinv.lt ha

theorem gcdSteps?_eq (steps : ℕ) (ha : Denotes p a f) (hb : Denotes p b g) :
    gcdSteps? p steps a b = some (ModPoly.gcdSteps p steps a b) := by
  induction steps generalizing a b f g with
  | zero => rfl
  | succ steps ih =>
    rw [ModPoly.gcdSteps?, ModPoly.gcdSteps]
    split
    · rfl
    · rw [ha.rem?_eq hb]
      exact ih hb (ha.rem hb)

theorem gcd?_eq (ha : Denotes p a f) (hb : Denotes p b g) :
    gcd? p a b = some (ModPoly.gcd p a b) := by
  rw [ModPoly.gcd?, ha.gcdSteps?_eq _ hb]
  exact (ha.gcdSteps hb (Nat.lt_succ_self _)).monic?_eq

theorem derivativeFrom?_eq (ha : Denotes p a f) (i : ℕ) :
    derivativeFrom? p i a = some (ModPoly.derivativeFrom p i a) := by
  induction a generalizing f i with
  | nil => rfl
  | cons c a ih =>
    obtain ⟨c', f, rfl, hc, ha⟩ := ha.uncons
    rw [ModPoly.derivativeFrom?, Residue.mul?_eq Fact.out (Residue.denotes_mod i).lt hc.lt,
      ih ha (i + 1)]
    rfl

theorem derivative?_eq (ha : Denotes p a f) :
    derivative? p a = some (ModPoly.derivative p a) := by
  cases a with
  | nil => rfl
  | cons c a =>
    obtain ⟨c', f, rfl, -, ha⟩ := ha.uncons
    exact ha.derivativeFrom?_eq 1

theorem mulMod?_eq {m : ModPoly} {h : (ZMod p)[X]} (hm : Denotes p m h) (ha : Denotes p a f)
    (hb : Denotes p b g) : mulMod? p m a b = some (ModPoly.mulMod p m a b) := by
  rw [ModPoly.mulMod?, ha.mul?_eq hb]
  exact (ha.mul hb).rem?_eq hm

theorem powMod?_eq {m : ModPoly} {h : (ZMod p)[X]} (hm : Denotes p m h) (ha : Denotes p a f)
    (n : ℕ) : powMod? p a n m = some (ModPoly.powMod p a n m) := by
  rw [ModPoly.powMod?, denotes_one.rem?_eq hm, ha.rem?_eq hm]
  refine powerBy_bind (P := fun b => ∃ g, Denotes p b g) ⟨_, denotes_one.rem hm⟩ ⟨_, ha.rem hm⟩
    ?_ n
  rintro b c ⟨g, hb⟩ ⟨k, hc⟩
  exact ⟨hm.mulMod?_eq hb hc, _, hm.mulMod hb hc⟩

theorem bezoutSteps?_eq (steps : ℕ) {r r' : (ZMod p)[X]} {c c' : Combination}
    (hc : c.Denotes p f g r) (hc' : c'.Denotes p f g r') :
    bezoutSteps? p steps c c' = some (ModPoly.bezoutSteps p steps c c') := by
  induction steps generalizing c c' r r' with
  | zero => rfl
  | succ steps ih =>
    obtain ⟨s, t, hvalue, hleft, hright, -⟩ := id hc
    obtain ⟨s', t', hvalue', hleft', hright', -⟩ := id hc'
    have hq := (hvalue.divRem hvalue').1
    rw [ModPoly.bezoutSteps?, ModPoly.bezoutSteps]
    split
    · rfl
    · rw [hvalue.divRem?_eq hvalue']
      dsimp only [Option.bind_eq_bind, Option.bind_some]
      rw [hq.mul?_eq hleft', Option.bind_some, hleft.sub?_eq (hq.mul hleft'), Option.bind_some,
        hq.mul?_eq hright', Option.bind_some, hright.sub?_eq (hq.mul hright'), Option.bind_some]
      exact ih hc' (hc.next hc')

theorem bezout?_eq (ha : Denotes p a f) (hb : Denotes p b g) :
    bezout? p a b = some (ModPoly.bezout p a b) := by
  have hleft : Combination.Denotes p f g f ⟨a, one, []⟩ := Combination.denotes_left ha
  have hright : Combination.Denotes p f g g ⟨b, [], one⟩ := Combination.denotes_right hb
  obtain ⟨s, t, -, hs, ht, -⟩ := bezoutSteps hleft hright (Nat.lt_succ_self _)
  rw [ModPoly.bezout?, bezoutSteps?_eq _ hleft hright, ModPoly.bezout]
  dsimp only [Option.bind_eq_bind, Option.bind_some]
  rw [Residue.inverse?_eq, Option.bind_some, scale?_eq (Residue.inverse_lt _) hs, Option.bind_some,
    scale?_eq (Residue.inverse_lt _) ht, Option.bind_some]
  rfl

end Denotes

end

/-! ## The ring of polynomials modulo the prime -/

open Polynomial

/-- The checked operation does not fail and returns what the plain one does, which is well formed
and denotes `f`. -/
structure Computes (p : ℕ) (checked : Option ModPoly) (plain : ModPoly) (f : (ZMod p)[X]) :
    Prop where
  eq : checked = some plain
  denotes : Denotes p plain f

/-- The operations on well-formed lists are those on the polynomials that these denote, and none
of them overflows a word or goes below zero on the way. -/
theorem arithmetic_exact {p : ℕ} [Fact p.Prime] (hlt : p < primeLimit) {a b : ModPoly}
    {f g : (ZMod p)[X]} (ha : Denotes p a f) (hb : Denotes p b g) :
    Computes p (add? p a b) (add p a b) (f + g) ∧
    Computes p (sub? p a b) (sub p a b) (f - g) ∧
    Computes p (mul? p a b) (mul p a b) (f * g) ∧
    (∀ c < p, Computes p (scale? p c a) (scale p c a) (C (c : ZMod p) * f)) ∧
    (divRem? p a b = some (divRem p a b) ∧
      ∃ q r, Denotes p (divRem p a b).1 q ∧ Denotes p (divRem p a b).2 r ∧ f = q * g + r ∧
        (g ≠ 0 → r.degree < g.degree)) ∧
    Computes p (monic? p a) (monic p a) (C f.leadingCoeff⁻¹ * f) ∧
    (∃ d, Computes p (gcd? p a b) (gcd p a b) d ∧ (f ≠ 0 ∨ g ≠ 0 → d.Monic) ∧
      ∀ q, q ∣ d ↔ q ∣ f ∧ q ∣ g) ∧
    Computes p (derivative? p a) (derivative p a) (Polynomial.derivative f) ∧
    (∀ n m h, Denotes p m h → Computes p (powMod? p a n m) (powMod p a n m) (f ^ n % h)) ∧
    bezout? p a b = some (bezout p a b) ∧
    (IsCoprime f g →
      ∃ s t, Denotes p (bezout p a b).1 s ∧ Denotes p (bezout p a b).2 t ∧ s * f + t * g = 1) := by
  have : Fact (p < primeLimit) := ⟨hlt⟩
  refine ⟨⟨ha.add?_eq hb, ha.add hb⟩, ⟨ha.sub?_eq hb, ha.sub hb⟩, ⟨ha.mul?_eq hb, ha.mul hb⟩,
    fun c hc => ⟨ha.scale?_eq hc, ha.scale ⟨hc, rfl⟩⟩, ⟨ha.divRem?_eq hb, ?_⟩,
    ⟨ha.monic?_eq, ha.monic.of_eq (mul_comm _ _)⟩, ⟨_, ⟨ha.gcd?_eq hb, ha.gcd hb⟩, fun h => ?_, ?_⟩,
    ⟨ha.derivative?_eq, ha.derivative⟩, fun n m h hm => ⟨hm.powMod?_eq ha n, hm.powMod ha n⟩,
    ha.bezout?_eq hb, ha.bezout hb⟩
  · obtain ⟨hq, hr⟩ := ha.divRem hb
    exact ⟨_, _, hq, hr, by rw [mul_comm, EuclideanDomain.div_add_mod], EuclideanDomain.mod_lt f⟩
  · refine monic_mul_leadingCoeff_inv fun h0 => ?_
    obtain ⟨hg, hf⟩ := EuclideanDomain.gcd_eq_zero_iff.1 h0
    exact h.elim (fun hf' => hf' hf) fun hg' => hg' hg
  · exact fun q => dvd_monic_gcd_iff

/-- Modulo 5, the polynomials `x + 1` and `x ^ 2 + 2` are coprime. -/
theorem arithmetic_exact_coprime :
    bezout? 5 [1, 1] [2, 0, 1] = some ([2, 3], [2]) ∧
      ∃ s t, Denotes 5 [2, 3] s ∧ Denotes 5 [2] t ∧
        s * (Polynomial.X + 1) + t * (Polynomial.X ^ 2 + 2) = 1 := by
  have hleft : Denotes 5 [1, 1] (Polynomial.X + 1) :=
    ⟨by decide, by simp, by simp [toPolynomial, add_comm]⟩
  have hright : Denotes 5 [2, 0, 1] (Polynomial.X ^ 2 + 2) := by
    refine ⟨by decide, by simp, ?_⟩
    have htwo : C (2 : ZMod 5) = 2 := rfl
    simp only [toPolynomial_list_cons, toPolynomial_nil, Nat.cast_ofNat, Nat.cast_zero,
      Nat.cast_one, C_0, C_1, htwo]
    ring
  have hcoprime : IsCoprime (Polynomial.X + 1 : (ZMod 5)[X]) (Polynomial.X ^ 2 + 2) := by
    have hfive : (5 : (ZMod 5)[X]) = 0 := CharP.cast_eq_zero (ZMod 5)[X] 5
    exact ⟨2 - 2 * Polynomial.X, 2, by linear_combination hfive⟩
  have hbezout : bezout 5 [1, 1] [2, 0, 1] = ([2, 3], [2]) := by decide +kernel
  have : Fact (Nat.Prime 5) := ⟨Nat.prime_five⟩
  obtain ⟨-, -, -, -, -, -, -, -, -, hchecked, hone⟩ :=
    arithmetic_exact (by decide) hleft hright
  rw [hbezout] at hchecked hone
  exact ⟨hchecked, hone hcoprime⟩

end ModPoly
end Meadow
