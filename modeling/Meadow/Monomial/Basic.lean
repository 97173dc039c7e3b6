import Meadow.FinSupp.Basic

set_option autoImplicit false

/-!
# Monomials

A monomial is a product of variables raised to positive powers, kept as the
finitely supported function from names to exponents.  Two monomials are equal
exactly when every variable has the same exponent in both
(`Monomial.ext_exponent`).  The operations are described by what they do to
exponents: a product adds them, a quotient subtracts them, a greatest common
divisor takes the smaller one and a least common multiple the larger one.

Exponents are numbers of any size here.  The program stores them in words of 32 bits and
adds them without looking for an overflow; monomials as they are stored, and all that is
computed from them, are in `Meadow.Stored`, which does the same as long as no sum of
exponents overflows.
-/

namespace Meadow

/-- A product of variables raised to positive powers. -/
structure Monomial where
  exponents : FinSupp String Nat compare 0
  deriving DecidableEq

namespace Monomial

/-- The exponent of a variable, zero if it does not occur. -/
def exponent (m : Monomial) (v : String) : Nat := m.exponents.get v

/-- Two monomials with the same exponents are equal. -/
theorem ext_exponent {m n : Monomial} (h : ∀ v, m.exponent v = n.exponent v) : m = n := by
  obtain ⟨f⟩ := m
  obtain ⟨g⟩ := n
  cases FinSupp.ext_get h
  rfl

/-- The variables that occur, each with its exponent, in increasing order of
their names. -/
def powers (m : Monomial) : List (String × Nat) := m.exponents.entries

/-- The names of the variables that occur, in increasing order. -/
def vars (m : Monomial) : List String := m.exponents.keys

/-- The empty product. -/
def one : Monomial := ⟨.empty⟩

instance : Inhabited Monomial := ⟨one⟩

/-- A variable raised to a power; the power zero is the empty product. -/
def power (v : String) (e : Nat) : Monomial := ⟨.single v e⟩

/-- Is this the empty product? -/
def isOne (m : Monomial) : Bool := m.exponents.isEmpty

/-- The sum of the exponents. -/
def degree (m : Monomial) : Nat := m.powers.foldr (fun p d => p.2 + d) 0

/-- The product. -/
def mul (m n : Monomial) : Monomial := ⟨m.exponents.merge (· + ·) n.exponents⟩

/-- The least common multiple. -/
def lcm (m n : Monomial) : Monomial := ⟨m.exponents.merge max n.exponents⟩

/-- The greatest common divisor. -/
def gcd (m n : Monomial) : Monomial :=
  ⟨m.exponents.mapVals fun v e => min e (n.exponent v)⟩

/-- The monomial with one variable removed. -/
def without (m : Monomial) (v : String) : Monomial :=
  ⟨m.exponents.filter fun w => decide (w ≠ v)⟩

/-- Does `m` divide `n`? -/
def divides (m n : Monomial) : Bool := m.powers.all fun p => decide (p.2 ≤ n.exponent p.1)

/-- The quotient `m / n`, if `n` divides `m`. -/
def divide? (m n : Monomial) : Option Monomial :=
  if n.divides m then some ⟨m.exponents.mapVals fun v e => e - n.exponent v⟩ else none

/-- The number of monomials that divide this one. -/
def divisorCount (m : Monomial) : Nat := m.powers.foldr (fun p k => (p.2 + 1) * k) 1

/-! ## Exponents of the results -/

@[simp] theorem exponent_one (v : String) : one.exponent v = 0 := rfl

@[simp] theorem exponent_power (v w : String) (e : Nat) :
    (power v e).exponent w = if v = w then e else 0 :=
  FinSupp.get_single v w e

@[simp] theorem exponent_mul (m n : Monomial) (v : String) :
    (m.mul n).exponent v = m.exponent v + n.exponent v :=
  FinSupp.get_merge Nat.zero_add Nat.add_zero m.exponents n.exponents v

@[simp] theorem exponent_lcm (m n : Monomial) (v : String) :
    (m.lcm n).exponent v = max (m.exponent v) (n.exponent v) :=
  FinSupp.get_merge (by simp) (by simp) m.exponents n.exponents v

@[simp] theorem exponent_gcd (m n : Monomial) (v : String) :
    (m.gcd n).exponent v = min (m.exponent v) (n.exponent v) :=
  FinSupp.get_mapVals m.exponents (h := fun v e => min e (n.exponent v)) (Nat.zero_min _)

@[simp] theorem exponent_without (m : Monomial) (v w : String) :
    (m.without v).exponent w = if w = v then 0 else m.exponent w := by
  rw [exponent, without, FinSupp.get_filter]
  by_cases h : w = v <;> simp [h, exponent]

/-- A variable occurs exactly when its exponent is positive. -/
theorem mem_vars_iff {m : Monomial} {v : String} : v ∈ m.vars ↔ 0 < m.exponent v :=
  FinSupp.mem_keys_iff.trans Nat.pos_iff_ne_zero.symm

/-- One monomial divides another exactly when no exponent exceeds the other's. -/
theorem divides_iff {m n : Monomial} : m.divides n = true ↔ ∀ v, m.exponent v ≤ n.exponent v := by
  simp only [divides, List.all_eq_true, decide_eq_true_eq]
  constructor
  · intro h v
    by_cases hv : m.exponent v = 0
    · rw [hv]
      exact Nat.zero_le _
    · exact h (v, m.exponent v) (FinSupp.mem_entries_iff.2 ⟨rfl, hv⟩)
  · intro h p hp
    have := h p.1
    rwa [exponent, (FinSupp.mem_entries_iff.1 (hp : (p.1, p.2) ∈ _)).1] at this

/-- The quotient exists exactly when multiplying it back gives the dividend. -/
theorem divide?_eq_some_iff {m n q : Monomial} : m.divide? n = some q ↔ m = n.mul q := by
  have quotient (h : ∀ v, n.exponent v ≤ m.exponent v) :
      n.mul ⟨m.exponents.mapVals fun v e => e - n.exponent v⟩ = m := by
    refine ext_exponent fun v => ?_
    rw [exponent_mul]
    have hz : (⟨m.exponents.mapVals fun v e => e - n.exponent v⟩ : Monomial).exponent v
        = m.exponent v - n.exponent v :=
      FinSupp.get_mapVals m.exponents (h := fun v e => e - n.exponent v) (Nat.zero_sub _)
    rw [hz]
    exact Nat.add_sub_cancel' (h v)
  unfold divide?
  constructor
  · intro h
    split at h
    · next hd =>
      cases h
      exact (quotient (divides_iff.1 hd)).symm
    · cases h
  · rintro rfl
    have hd : ∀ v, n.exponent v ≤ (n.mul q).exponent v := fun v => by simp
    rw [if_pos (divides_iff.2 hd)]
    refine congrArg some (ext_exponent fun v => ?_)
    have := congrArg (fun k => k.exponent v) (quotient hd)
    simp only [exponent_mul] at this
    omega

end Monomial
end Meadow
