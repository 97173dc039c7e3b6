import Mathlib
import Meadow.Proofs.Poly.Ring

set_option autoImplicit false

/-!
# Degrees and constants

What the tests on a polynomial say in the ring: which ones are constant, which
are units, and how degrees behave.  The degree in a variable is additive on
products of polynomials other than zero (`Poly.degreeIn_mul`), so a divisor of a
polynomial that is free of a variable is free of it as well.
-/

namespace Meadow

namespace Poly

/-! ## Terms -/

/-- The terms are the monomials with a coefficient other than zero. -/
theorem mem_terms_iff {p : Poly} {m : Monomial} {c : ℚ} :
    (m, c) ∈ p.terms ↔ p.coeff m = c ∧ c ≠ 0 :=
  FinSupp.mem_entries_iff

theorem coeff_of_mem {p : Poly} {t : Monomial × ℚ} (h : t ∈ p.terms) : p.coeff t.1 = t.2 :=
  (mem_terms_iff.1 (show (t.1, t.2) ∈ p.terms from h)).1

theorem coeff_ne_zero_of_mem {p : Poly} {t : Monomial × ℚ} (h : t ∈ p.terms) :
    p.coeff t.1 ≠ 0 := by
  rw [coeff_of_mem h]
  exact p.coeffs.nonzero t h

theorem mem_terms_of_coeff_ne_zero {p : Poly} {m : Monomial} (h : p.coeff m ≠ 0) :
    (m, p.coeff m) ∈ p.terms :=
  mem_terms_iff.2 ⟨rfl, h⟩

theorem isZero_iff {p : Poly} : p.isZero = true ↔ p = 0 := by
  constructor
  · intro h
    obtain ⟨⟨es, hs, hn⟩⟩ := p
    cases (show es = [] from List.isEmpty_iff.1 h)
    rfl
  · rintro rfl
    rfl

theorem isZero_eq_false_iff {p : Poly} : p.isZero = false ↔ p ≠ 0 := by
  rw [Ne, ← isZero_iff, Bool.not_eq_true]

theorem toMv_ne_zero {p : Poly} (h : p ≠ 0) : p.toMv ≠ 0 := fun h0 =>
  h (toMv_injective (h0.trans toMv_zero.symm))

/-! ## Degrees -/

/-- A largest value is bounded exactly when all values are. -/
theorem foldr_max_le_iff {α : Type} {f : α → ℕ} {l : List α} {n : ℕ} :
    l.foldr (fun a d => max (f a) d) 0 ≤ n ↔ ∀ a ∈ l, f a ≤ n := by
  induction l with
  | nil => simp
  | cons a l ih => simp [ih]

theorem degreeIn_le_iff {p : Poly} {v : String} {n : ℕ} :
    p.degreeIn v ≤ n ↔ ∀ m, p.coeff m ≠ 0 → m.exponent v ≤ n := by
  rw [degreeIn, foldr_max_le_iff]
  constructor
  · intro h m hm
    exact h _ (mem_terms_of_coeff_ne_zero hm)
  · intro h t ht
    exact h t.1 (coeff_ne_zero_of_mem ht)

theorem exponent_le_degreeIn {p : Poly} {m : Monomial} (h : p.coeff m ≠ 0) (v : String) :
    m.exponent v ≤ p.degreeIn v :=
  degreeIn_le_iff.1 le_rfl m h

/-- The variables of the terms have a positive degree. -/
theorem degreeIn_pos_of_mem_powers {p : Poly} {t : Monomial × ℚ} (ht : t ∈ p.terms)
    {w : String × ℕ} (hw : w ∈ t.1.powers) : 0 < p.degreeIn w.1 := by
  obtain ⟨hexponent, hne⟩ :=
    FinSupp.mem_entries_iff.1 (show (w.1, w.2) ∈ t.1.exponents.entries from hw)
  have hle : w.2 ≤ p.degreeIn w.1 :=
    hexponent ▸ exponent_le_degreeIn (coeff_ne_zero_of_mem ht) w.1
  exact (Nat.pos_of_ne_zero hne).trans_le hle

theorem degreeIn_eq (p : Poly) (v : String) : p.degreeIn v = p.toMv.degreeOf v := by
  refine le_antisymm ?_ ?_
  · rw [degreeIn_le_iff]
    intro m hm
    have hmem : m.toFinsupp ∈ p.toMv.support := by
      rwa [MvPolynomial.mem_support_iff, coeff_toMv]
    exact MvPolynomial.degreeOf_le_iff.1 le_rfl _ hmem
  · rw [MvPolynomial.degreeOf_le_iff]
    intro e he
    obtain ⟨m, rfl⟩ := Monomial.toFinsupp_surjective e
    rw [MvPolynomial.mem_support_iff, coeff_toMv] at he
    exact exponent_le_degreeIn he v

theorem degreeIn_mul {p q : Poly} (hp : p ≠ 0) (hq : q ≠ 0) (v : String) :
    (p * q).degreeIn v = p.degreeIn v + q.degreeIn v := by
  rw [degreeIn_eq, degreeIn_eq, degreeIn_eq, ← mul_def, toMv_mul]
  exact MvPolynomial.degreeOf_mul_eq (toMv_ne_zero hp) (toMv_ne_zero hq)

@[simp] theorem degreeIn_zero (v : String) : (0 : Poly).degreeIn v = 0 := rfl

theorem degreeIn_le_of_dvd {p q : Poly} (hq : q ≠ 0) (h : p ∣ q) (v : String) :
    p.degreeIn v ≤ q.degreeIn v := by
  obtain ⟨r, rfl⟩ := h
  rw [degreeIn_mul (left_ne_zero_of_mul hq) (right_ne_zero_of_mul hq)]
  exact Nat.le_add_right _ _

/-- No polynomial other than zero is divided by one with more of a variable. -/
theorem not_dvd_of_degreeIn_lt {p q : Poly} {v : String} (hq : q.isZero = false)
    (h : q.degreeIn v < p.degreeIn v) : ¬ p ∣ q :=
  fun hdvd => h.not_ge (degreeIn_le_of_dvd (isZero_eq_false_iff.1 hq) hdvd v)

@[simp] theorem degreeIn_constant (c : ℚ) (v : String) : (constant c).degreeIn v = 0 := by
  rw [degreeIn_eq, toMv_constant, MvPolynomial.degreeOf_C]

@[simp] theorem degreeIn_one (v : String) : (1 : Poly).degreeIn v = 0 := degreeIn_constant 1 v

theorem degreeIn_var (v w : String) : (var v).degreeIn w = if w = v then 1 else 0 := by
  rw [degreeIn_eq, toMv_var, MvPolynomial.degreeOf_X]

theorem var_injective : Function.Injective var := by
  intro v w h
  have hdegree := degreeIn_var v w
  rw [h, degreeIn_var, if_pos rfl] at hdegree
  by_contra hne
  rw [if_neg (Ne.symm hne)] at hdegree
  cases hdegree

theorem exponent_degrees (p : Poly) (v : String) : p.degrees.exponent v = p.degreeIn v := by
  have main (ts : List (Monomial × ℚ)) :
      (ts.foldr (fun t d => t.1.lcm d) Monomial.one).exponent v
        = ts.foldr (fun t d => max (t.1.exponent v) d) 0 := by
    induction ts with
    | nil => rfl
    | cons t ts ih => rw [List.foldr_cons, Monomial.exponent_lcm, ih, List.foldr_cons]
  exact main p.terms

/-- The variables that occur are those with a positive degree. -/
theorem mem_vars_iff {p : Poly} {v : String} : v ∈ p.vars ↔ 0 < p.degreeIn v := by
  rw [vars, Monomial.mem_vars_iff, exponent_degrees]

/-! ## Constants and units -/

theorem coeff_constant (c : ℚ) (m : Monomial) :
    (constant c).coeff m = if m = .one then c else 0 := by
  rw [constant, coeff_monomial]
  by_cases h : m = .one
  · simp [h]
  · rw [if_neg fun h' => h h'.symm, if_neg h]

theorem eq_constant_of_degreeIn_eq_zero {p : Poly} (h : ∀ v, p.degreeIn v = 0) :
    p = constant (p.coeff .one) := by
  apply ext_coeff
  intro m
  rw [coeff_constant]
  split
  · next hm => rw [hm]
  · next hm =>
    by_contra h0
    refine hm (Monomial.ext_exponent fun v => ?_)
    have hle := exponent_le_degreeIn h0 v
    rw [h v] at hle
    exact Nat.le_zero.1 hle

theorem isOne_monomial_iff {m : Monomial} : m.isOne = true ↔ m = .one := by
  constructor
  · intro h
    obtain ⟨⟨es, hs, hn⟩⟩ := m
    cases (show es = [] from List.isEmpty_iff.1 h)
    rfl
  · rintro rfl
    rfl

theorem isConstant_iff {p : Poly} : p.isConstant = true ↔ ∃ c, p = constant c := by
  constructor
  · intro h
    rw [isConstant, List.all_eq_true] at h
    refine ⟨p.coeff .one, eq_constant_of_degreeIn_eq_zero fun v => Nat.le_zero.1 ?_⟩
    rw [degreeIn, foldr_max_le_iff]
    intro t ht
    rw [isOne_monomial_iff.1 (h t ht), Monomial.exponent_one]
  · rintro ⟨c, rfl⟩
    rw [isConstant, List.all_eq_true]
    intro t ht
    have hc := coeff_of_mem ht
    rw [coeff_constant] at hc
    split at hc
    · next h => exact isOne_monomial_iff.2 h
    · exact absurd hc.symm ((constant c).coeffs.nonzero t ht)

theorem isConstant_iff_degreeIn {p : Poly} : p.isConstant = true ↔ ∀ v, p.degreeIn v = 0 := by
  rw [isConstant_iff]
  constructor
  · rintro ⟨c, rfl⟩ v
    exact degreeIn_constant c v
  · intro h
    exact ⟨_, eq_constant_of_degreeIn_eq_zero h⟩

theorem constant_injective : Function.Injective constant := by
  intro c d h
  have := congrArg (fun p => p.coeff .one) h
  simpa [coeff_constant] using this

@[simp] theorem constant_zero : constant 0 = 0 := toMv_injective (by simp [← zero_def])

theorem constant_eq_zero_iff {c : ℚ} : constant c = 0 ↔ c = 0 := by
  rw [← constant_zero, constant_injective.eq_iff]

theorem constantValue?_eq_some_iff {p : Poly} {c : ℚ} :
    p.constantValue? = some c ↔ p = constant c := by
  rw [constantValue?]
  constructor
  · intro h
    split at h
    · next hp =>
      obtain ⟨d, rfl⟩ := isConstant_iff.1 hp
      rw [coeff_constant, if_pos rfl, Option.some_inj] at h
      rw [h]
    · cases h
  · rintro rfl
    rw [if_pos (isConstant_iff.2 ⟨c, rfl⟩), coeff_constant, if_pos rfl]

theorem constantValue?_eq_none_iff {p : Poly} :
    p.constantValue? = none ↔ p.isConstant = false := by
  unfold constantValue?
  split
  · next h => simp [h]
  · next h => simpa using h

theorem isOne_iff {p : Poly} : p.isOne = true ↔ p = 1 := by
  unfold isOne
  split
  · next c h =>
    rw [constantValue?_eq_some_iff.1 h, decide_eq_true_eq, ← one_def, one,
      constant_injective.eq_iff]
  · next h =>
    simp only [Bool.false_eq_true, false_iff]
    rintro rfl
    rw [constantValue?_eq_some_iff.2 one_def.symm] at h
    cases h

theorem constant_mul_constant (c d : ℚ) : constant c * constant d = constant (c * d) :=
  toMv_injective (by rw [← mul_def, toMv_mul]; simp)

theorem scale_eq_mul (c : ℚ) (p : Poly) : p.scale c = constant c * p :=
  toMv_injective (by rw [← mul_def, toMv_mul]; simp)

/-- The units are the constants other than zero. -/
theorem isUnit_iff {p : Poly} : IsUnit p ↔ p.isConstant = true ∧ p ≠ 0 := by
  constructor
  · rintro h
    obtain ⟨q, hq⟩ := h.exists_right_inv
    have hne : p * q ≠ 0 := hq ▸ one_ne_zero
    refine ⟨isConstant_iff_degreeIn.2 fun v => ?_, left_ne_zero_of_mul hne⟩
    have hdeg := degreeIn_mul (left_ne_zero_of_mul hne) (right_ne_zero_of_mul hne) v
    rw [hq, degreeIn_one] at hdeg
    omega
  · rintro ⟨hp, h0⟩
    obtain ⟨c, rfl⟩ := isConstant_iff.1 hp
    have hc : c ≠ 0 := fun h => h0 (constant_eq_zero_iff.2 h)
    refine IsUnit.of_mul_eq_one (constant c⁻¹) ?_
    rw [constant_mul_constant, mul_inv_cancel₀ hc]
    rfl

/-- A variable is told apart by its one term. -/
theorem asVariable?_eq_some_iff {p : Poly} {v : String} : p.asVariable? = some v ↔ p = var v := by
  constructor
  · intro h
    unfold asVariable? at h
    split at h
    · next m c hp =>
      split at h
      · next w hm =>
        split at h
        · next hc =>
          cases h
          refine toMv_injective ?_
          have hpow : m = .power v 1 := Monomial.ext_powers hm
          rw [toMv, hp, toMv_var, hpow, hc]
          simp [MvPolynomial.X]
        · cases h
      · cases h
    · cases h
  · rintro rfl
    rfl

end Poly
end Meadow
