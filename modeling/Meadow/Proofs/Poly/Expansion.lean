import Mathlib
import Meadow.Poly.Gcd
import Meadow.Proofs.Poly.Degree

set_option autoImplicit false

/-!
# A polynomial in one of its variables

`Poly.inVar w` reads a polynomial as one in the variable `w` alone, with
coefficients that are free of `w`.  It is a homomorphism, its coefficients are
those that `coefficientIn` lists, its degree is `degreeIn`, and putting the
variable back gives the polynomial again.
-/

namespace Meadow

namespace Poly

/-! ## Sums of terms -/

theorem ofTerms_eq_sum (ts : List (Monomial × ℚ)) :
    ofTerms ts = (ts.map fun t => monomial t.1 t.2).sum := by
  induction ts with
  | nil => rfl
  | cons t ts ih =>
    rw [List.map_cons, List.sum_cons, ← ih]
    rfl

theorem sum_terms (p : Poly) : (p.terms.map fun t => monomial t.1 t.2).sum = p := by
  refine toMv_injective ?_
  rw [← ofTerms_eq_sum, toMv_ofTerms, toMv]

theorem degreeIn_add_le (p q : Poly) (w : String) :
    (p + q).degreeIn w ≤ max (p.degreeIn w) (q.degreeIn w) := by
  rw [degreeIn_eq, degreeIn_eq, degreeIn_eq, ← add_def, toMv_add]
  exact MvPolynomial.degreeOf_add_le _ _ _

theorem degreeIn_mul_le (p q : Poly) (w : String) :
    (p * q).degreeIn w ≤ p.degreeIn w + q.degreeIn w := by
  rw [degreeIn_eq, degreeIn_eq, degreeIn_eq, ← mul_def, toMv_mul]
  exact MvPolynomial.degreeOf_mul_le _ _ _

theorem degreeIn_pow_le (p : Poly) (n : ℕ) (w : String) :
    (p ^ n).degreeIn w ≤ n * p.degreeIn w := by
  rw [degreeIn_eq, degreeIn_eq, ← pow_def, toMv_pow]
  exact MvPolynomial.degreeOf_pow_le _ _ _

theorem degreeIn_sum_le {ps : List Poly} {w : String} {n : ℕ}
    (h : ∀ p ∈ ps, p.degreeIn w ≤ n) : ps.sum.degreeIn w ≤ n := by
  induction ps with
  | nil => exact Nat.zero_le _
  | cons p ps ih =>
    rw [List.sum_cons]
    refine (degreeIn_add_le _ _ _).trans (max_le (h p List.mem_cons_self) (ih ?_))
    exact fun q hq => h q (List.mem_cons_of_mem _ hq)

theorem degreeIn_monomial_le (m : Monomial) (c : ℚ) (w : String) :
    (monomial m c).degreeIn w ≤ m.exponent w := by
  rw [degreeIn_le_iff]
  intro n hn
  rw [coeff_monomial] at hn
  split at hn
  · next h => rw [h]
  · exact absurd rfl hn

/-! ## The coefficients as a polynomial in one variable -/

/-- The constants, as a homomorphism. -/
noncomputable def constantHom : ℚ →+* Poly where
  toFun := constant
  map_zero' := constant_zero
  map_one' := rfl
  map_add' c d := toMv_injective (by rw [← add_def, toMv_add]; simp)
  map_mul' c d := (constant_mul_constant c d).symm

/-- The polynomial as one in the variable `w` alone. -/
noncomputable def inVar (w : String) : Poly →+* Polynomial Poly :=
  (MvPolynomial.eval₂Hom (Polynomial.C.comp constantHom) fun x =>
    if x = w then Polynomial.X else Polynomial.C (var x)).comp toMvHom

theorem inVar_constant (w : String) (c : ℚ) :
    inVar w (constant c) = Polynomial.C (constant c) := by
  change MvPolynomial.eval₂Hom _ _ (constant c).toMv = _
  rw [toMv_constant, MvPolynomial.eval₂Hom_C]
  rfl

theorem inVar_var (w x : String) :
    inVar w (var x) = if x = w then Polynomial.X else Polynomial.C (var x) := by
  change MvPolynomial.eval₂Hom _ _ (var x).toMv = _
  rw [toMv_var, MvPolynomial.eval₂Hom_X']

theorem monomial_mul_monomial (m n : Monomial) (c d : ℚ) :
    monomial m c * monomial n d = monomial (m.mul n) (c * d) :=
  toMv_injective (by rw [← mul_def, toMv_mul]; simp [MvPolynomial.monomial_mul])

theorem monomial_power (x : String) (e : ℕ) : monomial (.power x e) 1 = var x ^ e := by
  refine toMv_injective ?_
  rw [← pow_def, toMv_pow, toMv_var, toMv_monomial, Monomial.toFinsupp_power,
    MvPolynomial.X_pow_eq_monomial]

/-- The variable `w` taken out of a monomial. -/
theorem without_mul_power (m : Monomial) (w : String) :
    (m.without w).mul (.power w (m.exponent w)) = m :=
  Monomial.ext_exponent fun x => by
    rw [Monomial.exponent_mul, Monomial.exponent_without, Monomial.exponent_power]
    by_cases h : x = w
    · simp [h]
    · rw [if_neg h, if_neg fun h' => h h'.symm, add_zero]

/-- A monomial free of `w` is a coefficient. -/
theorem inVar_monomial_of_free {m : Monomial} {w : String} (hm : m.exponent w = 0) (c : ℚ) :
    inVar w (monomial m c) = Polynomial.C (monomial m c) := by
  obtain ⟨f, hf⟩ : ∃ f, f = m.toFinsupp := ⟨_, rfl⟩
  induction f using Finsupp.induction generalizing m with
  | zero =>
    have hone : m = .one := Monomial.toFinsupp_injective (by rw [← hf, Monomial.toFinsupp_one])
    rw [hone]
    exact inVar_constant w c
  | single_add x e f hx he ih =>
    obtain ⟨n, rfl⟩ := Monomial.toFinsupp_surjective f
    have hmul : m = n.mul (.power x e) := by
      refine Monomial.toFinsupp_injective ?_
      rw [← hf, Monomial.toFinsupp_mul, Monomial.toFinsupp_power, add_comm]
    rw [hmul, Monomial.exponent_mul, Monomial.exponent_power] at hm
    have hxw : x ≠ w := by
      rintro rfl
      rw [if_pos rfl] at hm
      omega
    have hsplit : monomial m c = monomial n c * var x ^ e := by
      rw [← monomial_power, monomial_mul_monomial, mul_one, hmul]
    rw [hsplit, map_mul, map_pow, ih (by omega) rfl, inVar_var, if_neg hxw]
    simp

theorem inVar_monomial (w : String) (m : Monomial) (c : ℚ) :
    inVar w (monomial m c)
      = Polynomial.monomial (m.exponent w) (monomial (m.without w) c) := by
  have hfree : (m.without w).exponent w = 0 := by simp
  have hsplit : monomial m c = monomial (m.without w) c * var w ^ m.exponent w := by
    rw [← monomial_power, monomial_mul_monomial, mul_one, without_mul_power]
  rw [hsplit, map_mul, map_pow, inVar_monomial_of_free hfree, inVar_var, if_pos rfl,
    Polynomial.C_mul_X_pow_eq_monomial]

theorem inVar_eq_sum (w : String) (p : Poly) :
    inVar w p = (p.terms.map fun t =>
      Polynomial.monomial (t.1.exponent w) (monomial (t.1.without w) t.2)).sum := by
  conv_lhs => rw [← sum_terms p, map_list_sum, List.map_map]
  refine congrArg List.sum (List.map_congr_left fun t _ => ?_)
  exact inVar_monomial w t.1 t.2

/-- The coefficients are those that are read off the terms. -/
@[simp] theorem coeff_inVar (w : String) (p : Poly) (i : ℕ) :
    (inVar w p).coeff i = p.coefficientIn w i := by
  have main (ts : List (Monomial × ℚ)) :
      ((ts.map fun t =>
          Polynomial.monomial (t.1.exponent w) (monomial (t.1.without w) t.2)).sum).coeff i
        = ofTerms ((ts.filter fun t => t.1.exponent w == i).map fun t =>
            (t.1.without w, t.2)) := by
    induction ts with
    | nil => rfl
    | cons t ts ih =>
      rw [List.map_cons, List.sum_cons, Polynomial.coeff_add, ih, Polynomial.coeff_monomial]
      by_cases h : t.1.exponent w = i
      · rw [if_pos h, List.filter_cons_of_pos (by simpa using h)]
        rfl
      · rw [if_neg h, zero_add, List.filter_cons_of_neg (by simpa using h)]
  rw [inVar_eq_sum, coefficientIn]
  exact main p.terms

/-- Putting the variable back gives the polynomial. -/
theorem eval_inVar (w : String) (p : Poly) : (inVar w p).eval (var w) = p := by
  conv_rhs => rw [← sum_terms p]
  rw [inVar_eq_sum, Polynomial.eval_listSum, List.map_map]
  refine congrArg List.sum (List.map_congr_left fun t _ => ?_)
  rw [Function.comp_apply, Polynomial.eval_monomial, ← monomial_power, monomial_mul_monomial,
    mul_one, without_mul_power]

theorem inVar_injective (w : String) : Function.Injective (inVar w) := by
  intro p q h
  rw [← eval_inVar w p, h, eval_inVar]

theorem inVar_eq_zero_iff {w : String} {p : Poly} : inVar w p = 0 ↔ p = 0 :=
  map_eq_zero_iff _ (inVar_injective w)

theorem coefficientIn_eq_zero_of_lt {p : Poly} {w : String} {i : ℕ} (h : p.degreeIn w < i) :
    p.coefficientIn w i = 0 := by
  have hnone : (p.terms.filter fun t => t.1.exponent w == i) = [] := by
    rw [List.filter_eq_nil_iff]
    intro t ht
    have hne : p.coeff t.1 ≠ 0 := coeff_ne_zero_of_mem ht
    have hle := exponent_le_degreeIn hne w
    simp only [beq_iff_eq]
    omega
  rw [coefficientIn, hnone]
  rfl

/-- The coefficients are free of the variable. -/
@[simp] theorem degreeIn_coefficientIn (p : Poly) (w : String) (i : ℕ) :
    (p.coefficientIn w i).degreeIn w = 0 := by
  refine Nat.le_zero.1 ?_
  rw [coefficientIn, ofTerms_eq_sum, List.map_map]
  refine degreeIn_sum_le ?_
  intro q hq
  obtain ⟨t, -, rfl⟩ := List.mem_map.1 hq
  refine (degreeIn_monomial_le _ _ _).trans ?_
  simp

theorem natDegree_inVar (w : String) (p : Poly) : (inVar w p).natDegree = p.degreeIn w := by
  refine le_antisymm ?_ ?_
  · refine Polynomial.natDegree_le_iff_coeff_eq_zero.2 fun i hi => ?_
    rw [coeff_inVar, coefficientIn_eq_zero_of_lt hi]
  · conv_lhs => rw [← eval_inVar w p, Polynomial.eval_eq_sum_range]
    refine Finset.sum_induction _ (fun q : Poly => q.degreeIn w ≤ _) ?_ (Nat.zero_le _) ?_
    · intro q r hq hr
      exact (degreeIn_add_le q r w).trans (max_le hq hr)
    · intro i hi
      have hpow := degreeIn_pow_le (var w) i w
      have hmul := degreeIn_mul_le (p.coefficientIn w i) (var w ^ i) w
      rw [degreeIn_var, if_pos rfl, mul_one] at hpow
      rw [degreeIn_coefficientIn] at hmul
      rw [coeff_inVar]
      have hi := Finset.mem_range.1 hi
      omega

theorem leadingCoeff_inVar (w : String) (p : Poly) :
    (inVar w p).leadingCoeff = p.leadingCoefficientIn w := by
  rw [Polynomial.leadingCoeff, natDegree_inVar, coeff_inVar, leadingCoefficientIn]

theorem leadingCoefficientIn_ne_zero {p : Poly} (hp : p ≠ 0) (w : String) :
    p.leadingCoefficientIn w ≠ 0 := by
  rw [← leadingCoeff_inVar, Ne, Polynomial.leadingCoeff_eq_zero, inVar_eq_zero_iff]
  exact hp

/-- A polynomial free of the variable is its own only coefficient. -/
theorem inVar_of_free {p : Poly} {w : String} (h : p.degreeIn w = 0) :
    inVar w p = Polynomial.C p := by
  rw [← natDegree_inVar] at h
  have hC := Polynomial.eq_C_of_natDegree_eq_zero h
  rw [hC]
  congr 1
  conv_rhs => rw [← eval_inVar w p, hC, Polynomial.eval_C]

/-- A polynomial free of the variable divides another exactly when it divides all
its coefficients. -/
theorem dvd_iff_dvd_coefficientIn {d p : Poly} {w : String} (hd : d.degreeIn w = 0) :
    d ∣ p ↔ ∀ i, d ∣ p.coefficientIn w i := by
  constructor
  · rintro ⟨q, rfl⟩ i
    rw [← coeff_inVar, map_mul, inVar_of_free hd, Polynomial.coeff_C_mul]
    exact Dvd.intro _ rfl
  · intro h
    have hC : Polynomial.C d ∣ inVar w p :=
      (Polynomial.C_dvd_iff_dvd_coeff _ _).2 fun i => by rw [coeff_inVar]; exact h i
    obtain ⟨q, hq⟩ := hC
    refine ⟨q.eval (var w), ?_⟩
    rw [← eval_inVar w p, hq, Polynomial.eval_mul, Polynomial.eval_C]

/-! ## The listed coefficients -/

theorem get_expandIn (p : Poly) (w : String) (i : ℕ) :
    (p.expandIn w).get i = p.coefficientIn w i := by
  have main (ts : List (Monomial × ℚ)) :
      (ts.foldr (fun t acc =>
          (FinSupp.single (t.1.exponent w) (monomial (t.1.without w) t.2)).merge add acc)
        (FinSupp.empty : FinSupp ℕ Poly (descending compare) zero)).get i
        = ofTerms ((ts.filter fun t => t.1.exponent w == i).map fun t =>
            (t.1.without w, t.2)) := by
    induction ts with
    | nil => rfl
    | cons t ts ih =>
      have hl : ∀ q : Poly, zero.add q = q := zero_add
      have hr : ∀ q : Poly, q.add zero = q := add_zero
      rw [List.foldr_cons, FinSupp.get_merge hl hr, ih, FinSupp.get_single]
      by_cases h : t.1.exponent w = i
      · rw [if_pos h, List.filter_cons_of_pos (by simpa using h)]
        rfl
      · rw [if_neg h, List.filter_cons_of_neg (by simpa using h), hl]
  exact main p.terms

/-- What divides all listed coefficients divides all coefficients. -/
theorem forall_mem_expandIn_iff {p d : Poly} {w : String} :
    (∀ e ∈ (p.expandIn w).entries, d ∣ e.2) ↔ ∀ i, d ∣ p.coefficientIn w i := by
  constructor
  · intro h i
    by_cases h0 : p.coefficientIn w i = 0
    · rw [h0]
      exact dvd_zero d
    · refine h (i, p.coefficientIn w i) (FinSupp.mem_entries_iff.2 ⟨get_expandIn p w i, h0⟩)
  · rintro h ⟨i, c⟩ he
    rw [FinSupp.mem_entries_iff, get_expandIn] at he
    rw [← he.1]
    exact h i

end Poly
end Meadow
