import Mathlib
import Meadow.Univariate.Modular

set_option autoImplicit false

/-!
# Residues in machine words

For a modulus below `primeLimit`, no sum or product of two residues leaves a word
(`Residue.add_eq`, `Residue.sub_eq`, `Residue.mul_eq`, `Residue.addMul_eq`).
`Residue.Denotes p a x` says that the word `a` stands for the integer `x` modulo the prime
`p`; the operations on words are those of the integers modulo `p`, the inverse by Fermat's
theorem (`Residue.Denotes.inverse`).  A power by repeated squaring has what a sum of exponents
gives to a product (`powerBy_of_add`).
-/

namespace Meadow

/-! ## Powers by repeated squaring -/

theorem div_two_pow_succ (n k : ℕ) :
    n / 2 ^ k = n / 2 ^ (k + 1) + n / 2 ^ (k + 1) + (n.testBit k).toNat := by
  rw [Nat.toNat_testBit, pow_succ, ← Nat.div_div_eq_div_mul]
  omega

/-- What belongs to the exponents zero and one, and to a sum with a product, belongs to the
power.  The digits read so far are a quotient of the exponent by a power of two. -/
theorem powerBy_of_add {α : Type} {mul : α → α → α} {one base : α} {R : ℕ → α → Prop}
    (hone : R 0 one) (hbase : R 1 base)
    (hadd : ∀ {i j : ℕ} {x y : α}, R i x → R j y → R (i + j) (mul x y)) (n : ℕ) :
    R n (powerBy mul one base n) := by
  have main (k : ℕ) (acc : α) (hacc : R (n / 2 ^ k) acc) :
      R n (((List.range k).reverse.map n.testBit).foldl
        (fun acc digit =>
          let square := mul acc acc
          if digit then mul square base else square) acc) := by
    induction k generalizing acc with
    | zero => simpa using hacc
    | succ k ih =>
      rw [List.range_succ, List.reverse_append, List.map_append, List.foldl_append]
      refine ih _ ?_
      rw [div_two_pow_succ]
      cases hbit : n.testBit k with
      | false => simpa [hbit] using hadd hacc hacc
      | true => simpa [hbit] using hadd (hadd hacc hacc) hbase
  refine main (n.log2 + 1) one ?_
  rwa [Nat.div_eq_of_lt Nat.lt_log2_self]

/-! ## Words -/

namespace Residue

variable {p a b c : ℕ}

theorem toNat_toUInt64 (h : a < primeLimit) : a.toUInt64.toNat = a := by
  rw [Nat.toUInt64_eq, UInt64.toNat_ofNat', Nat.mod_eq_of_lt]
  exact h.trans_le (by decide)

/-- A product of residues with a residue added fits a word. -/
theorem add_mul_lt (ha : a < primeLimit) (hb : b < primeLimit) (hc : c < primeLimit) :
    c + a * b < 2 ^ 64 := by
  have hab := Nat.mul_lt_mul'' ha hb
  have hlimit : primeLimit = 1048576 := rfl
  rw [hlimit] at hab hc
  omega

section Words

variable (hp : p < primeLimit)

include hp

theorem add_eq (ha : a < p) (hb : b < p) : add p a b = (a + b) % p := by
  rw [add, UInt64.toNat_mod, UInt64.toNat_add, toNat_toUInt64 (ha.trans hp),
    toNat_toUInt64 (hb.trans hp), toNat_toUInt64 hp, Nat.mod_eq_of_lt (b := 2 ^ 64)]
  have hlimit : primeLimit = 1048576 := rfl
  omega

theorem sub_eq (ha : a < p) (hb : b < p) : sub p a b = (a + p - b) % p := by
  have hlimit : primeLimit = 1048576 := rfl
  have hsum : (a.toUInt64 + p.toUInt64).toNat = a + p := by
    rw [UInt64.toNat_add, toNat_toUInt64 (ha.trans hp), toNat_toUInt64 hp, Nat.mod_eq_of_lt]
    omega
  have hle : b.toUInt64 ≤ a.toUInt64 + p.toUInt64 := by
    rw [UInt64.le_iff_toNat_le, hsum, toNat_toUInt64 (hb.trans hp)]
    omega
  rw [sub, UInt64.toNat_mod, UInt64.toNat_sub_of_le _ _ hle, hsum, toNat_toUInt64 (hb.trans hp),
    toNat_toUInt64 hp]

theorem addMul_eq (ha : a < p) (hb : b < p) (hc : c < p) : addMul p c a b = (c + a * b) % p := by
  have hlt := add_mul_lt (ha.trans hp) (hb.trans hp) (hc.trans hp)
  rw [addMul, UInt64.toNat_mod, UInt64.toNat_add, UInt64.toNat_mul, toNat_toUInt64 (ha.trans hp),
    toNat_toUInt64 (hb.trans hp), toNat_toUInt64 (hc.trans hp), toNat_toUInt64 hp,
    Nat.add_mod_mod, Nat.mod_eq_of_lt hlt]

theorem mul_eq (ha : a < p) (hb : b < p) : mul p a b = a * b % p := by
  have hlt := add_mul_lt (ha.trans hp) (hb.trans hp) (c := 0) (by decide)
  rw [zero_add] at hlt
  rw [mul, UInt64.toNat_mod, UInt64.toNat_mul, toNat_toUInt64 (ha.trans hp),
    toNat_toUInt64 (hb.trans hp), toNat_toUInt64 hp, Nat.mod_eq_of_lt hlt]

end Words

/-! ## Residues as integers modulo the prime -/

/-- The word `a` stands for an integer modulo `p`. -/
structure Denotes (p a : ℕ) (x : ZMod p) : Prop where
  lt : a < p
  eq : (a : ZMod p) = x

theorem Denotes.unique {x : ZMod p} (ha : Denotes p a x) (hb : Denotes p b x) : a = b := by
  have hmod := (ZMod.natCast_eq_natCast_iff' a b p).1 (ha.eq.trans hb.eq.symm)
  rwa [Nat.mod_eq_of_lt ha.lt, Nat.mod_eq_of_lt hb.lt] at hmod

variable [Fact p.Prime]

theorem denotes_mod (a : ℕ) : Denotes p (a % p) (a : ZMod p) :=
  ⟨Nat.mod_lt a (NeZero.pos p), ZMod.natCast_mod a p⟩

theorem denotes_zero : Denotes p 0 0 := ⟨NeZero.pos p, Nat.cast_zero⟩

theorem denotes_one : Denotes p 1 1 := ⟨(Fact.out : p.Prime).one_lt, Nat.cast_one⟩

namespace Denotes

variable {x y z : ZMod p}

theorem eq_zero_iff (h : Denotes p a x) : a = 0 ↔ x = 0 := by
  rw [← h.eq, ZMod.natCast_eq_zero_iff]
  exact ⟨fun h0 => h0 ▸ dvd_zero p, fun hdvd => Nat.eq_zero_of_dvd_of_lt hdvd h.lt⟩

variable [Fact (p < primeLimit)]

theorem add (ha : Denotes p a x) (hb : Denotes p b y) :
    Denotes p (Residue.add p a b) (x + y) := by
  rw [add_eq Fact.out ha.lt hb.lt, ← ha.eq, ← hb.eq, ← Nat.cast_add]
  exact denotes_mod _

theorem sub (ha : Denotes p a x) (hb : Denotes p b y) :
    Denotes p (Residue.sub p a b) (x - y) := by
  have hcast : ((a + p - b : ℕ) : ZMod p) = x - y := by
    rw [Nat.cast_sub (hb.lt.le.trans (Nat.le_add_left p a)), Nat.cast_add, ZMod.natCast_self,
      add_zero, ha.eq, hb.eq]
  rw [sub_eq Fact.out ha.lt hb.lt, ← hcast]
  exact denotes_mod _

theorem mul (ha : Denotes p a x) (hb : Denotes p b y) :
    Denotes p (Residue.mul p a b) (x * y) := by
  rw [mul_eq Fact.out ha.lt hb.lt, ← ha.eq, ← hb.eq, ← Nat.cast_mul]
  exact denotes_mod _

theorem addMul (hc : Denotes p c z) (ha : Denotes p a x) (hb : Denotes p b y) :
    Denotes p (Residue.addMul p c a b) (z + x * y) := by
  rw [addMul_eq Fact.out ha.lt hb.lt hc.lt, ← ha.eq, ← hb.eq, ← hc.eq, ← Nat.cast_mul,
    ← Nat.cast_add]
  exact denotes_mod _

theorem subMul (hc : Denotes p c z) (ha : Denotes p a x) (hb : Denotes p b y) :
    Denotes p (Residue.subMul p c a b) (z - x * y) := hc.sub (ha.mul hb)

/-- By Fermat's theorem, the power `p - 2` is the inverse. -/
theorem inverse (ha : Denotes p a x) (hx : x ≠ 0) : Denotes p (Residue.inverse p a) x⁻¹ := by
  have hpow : x ^ (p - 2) = x⁻¹ := by
    refine eq_inv_of_mul_eq_one_left ?_
    have htwo := (Fact.out : p.Prime).two_le
    rw [← pow_succ, show p - 2 + 1 = p - 1 by omega, ZMod.pow_card_sub_one_eq_one hx]
  rw [← hpow, Residue.inverse, Nat.mod_eq_of_lt ha.lt]
  refine powerBy_of_add (R := fun n b => Denotes p b (x ^ n)) ?_ ?_ ?_ (p - 2)
  · rw [pow_zero]
    exact denotes_one
  · rwa [pow_one]
  · intro i j b c hb hc
    rw [pow_add]
    exact hb.mul hc

end Denotes

end Residue
end Meadow
