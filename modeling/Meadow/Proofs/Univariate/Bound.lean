import Mathlib
import Meadow.Proofs.Univariate.Integer
import Meadow.Univariate.Factor

set_option autoImplicit false

/-!
# The bound for the coefficients of factors

Twice a coefficient of a factor, times what divides the leading coefficient, stays below
`factorBound` (`IntPoly.two_mul_natAbs_lt_factorBound`).  This is Mignotte's bound: a
coefficient is at most a binomial coefficient times the Mahler measure, the measure of a
factor is at most that of the polynomial, and by Landau's inequality the Euclidean length of
the coefficients bounds it.
-/

namespace Meadow

namespace IntPoly

open Polynomial

/-- The sum of the squares of the coefficients. -/
theorem sum_sq_coeff (f : IntPoly) :
    ∑ i ∈ Finset.range f.length, (toPolynomial f).coeff i ^ 2
      = (f.foldr (fun c s => c.natAbs * c.natAbs + s) 0 : ℕ) := by
  induction f with
  | nil => rfl
  | cons c f ih =>
    rw [List.length_cons, Finset.sum_range_succ', List.foldr_cons, Nat.cast_add, ← ih]
    have htail (i : ℕ) : (toPolynomial (c :: f)).coeff (i + 1) = (toPolynomial f).coeff i := by
      rw [coeff_toPolynomial, coeff_toPolynomial, List.getD_cons_succ]
    have hhead : (toPolynomial (c :: f)).coeff 0 = c := by
      rw [coeff_toPolynomial, List.getD_cons_zero]
    simp only [htail, hhead]
    rw [Nat.cast_mul, Int.natAbs_mul_self', add_comm, sq]

/-- The Euclidean length of the coefficients is below `norm`. -/
theorem sqrt_sum_sq_lt_norm (f : IntPoly) :
    √(∑ i ∈ ((toPolynomial f).map (Int.castRingHom ℂ)).support,
      ‖((toPolynomial f).map (Int.castRingHom ℂ)).coeff i‖ ^ 2) < f.norm := by
  set S := f.foldr (fun c s => c.natAbs * c.natAbs + s) 0 with hS
  have hnorm (i : ℕ) : ‖((toPolynomial f).map (Int.castRingHom ℂ)).coeff i‖ ^ 2
      = (((toPolynomial f).coeff i ^ 2 : ℤ) : ℝ) := by
    rw [coeff_map, eq_intCast, Complex.norm_intCast, sq_abs, Int.cast_pow]
  have hsum : ∑ i ∈ ((toPolynomial f).map (Int.castRingHom ℂ)).support,
      ‖((toPolynomial f).map (Int.castRingHom ℂ)).coeff i‖ ^ 2 = (S : ℝ) := by
    have hsubset : ((toPolynomial f).map (Int.castRingHom ℂ)).support ⊆ Finset.range f.length := by
      intro i hi
      rw [Finset.mem_range]
      by_contra hle
      rw [mem_support_iff, coeff_map, coeff_toPolynomial,
        List.getD_eq_default _ _ (not_lt.1 hle), map_zero] at hi
      exact hi rfl
    rw [Finset.sum_subset hsubset fun i _ hi => by rw [notMem_support_iff.1 hi]; simp]
    rw [Finset.sum_congr rfl fun i _ => hnorm i, ← Int.cast_sum, sum_sq_coeff]
    exact Int.cast_natCast S
  have hlt : (S : ℝ) < ((Nat.sqrt S + 1 : ℕ) : ℝ) ^ 2 := by
    exact_mod_cast Nat.lt_succ_sqrt' S
  rw [hsum, norm, Real.sqrt_lt' (by positivity)]
  exact hlt

/-- A coefficient of a factor is below two to the degree times `norm`. -/
theorem natAbs_coeff_lt_of_dvd {f : IntPoly} (hf : Trimmed f) (hf0 : f ≠ []) {d : ℤ[X]}
    (hd : d ∣ toPolynomial f) (i : ℕ) : (d.coeff i).natAbs < 2 ^ f.degree * f.norm := by
  obtain ⟨e, he⟩ := hd
  have hF : toPolynomial f ≠ 0 := hf.toPolynomial_ne_zero hf0
  have he0 : e ≠ 0 := by
    rintro rfl
    exact hF (by rw [he, mul_zero])
  have hcoeff := norm_coeff_le_choose_mul_mahlerMeasure_of_one_le_mahlerMeasure i
    (d.map (Int.castRingHom ℂ)) (e.map (Int.castRingHom ℂ)) (one_le_mahlerMeasure_of_ne_zero he0)
  rw [← Polynomial.map_mul, ← he, coeff_map, eq_intCast, Complex.norm_intCast] at hcoeff
  have hlandau := (mahlerMeasure_le_sqrt_sum_sq_norm_coeff
    ((toPolynomial f).map (Int.castRingHom ℂ))).trans_lt (sqrt_sum_sq_lt_norm f)
  have hchoose : (d.map (Int.castRingHom ℂ)).natDegree.choose i ≤ 2 ^ f.degree := by
    refine (Nat.choose_le_two_pow _ _).trans (Nat.pow_le_pow_right Nat.two_pos ?_)
    have hle := natDegree_le_of_dvd (Dvd.intro e he.symm) hF
    rw [hf.natDegree_eq hf0] at hle
    exact natDegree_map_le.trans hle
  have hpos : (0 : ℝ) < (2 ^ f.degree : ℕ) := by positivity
  have hreal : ((d.coeff i).natAbs : ℝ) < ((2 ^ f.degree * f.norm : ℕ) : ℝ) := by
    rw [Nat.cast_mul, Nat.cast_natAbs, Int.cast_abs]
    calc |((d.coeff i : ℤ) : ℝ)|
        ≤ ((d.map (Int.castRingHom ℂ)).natDegree.choose i : ℝ)
          * ((toPolynomial f).map (Int.castRingHom ℂ)).mahlerMeasure := hcoeff
      _ ≤ ((2 ^ f.degree : ℕ) : ℝ) * ((toPolynomial f).map (Int.castRingHom ℂ)).mahlerMeasure :=
        mul_le_mul_of_nonneg_right (by exact_mod_cast hchoose) (mahlerMeasure_nonneg _)
      _ < ((2 ^ f.degree : ℕ) : ℝ) * (f.norm : ℝ) := mul_lt_mul_of_pos_left hlandau hpos
  exact_mod_cast hreal

/-- Twice a coefficient of a factor, times a divisor of the leading coefficient, stays below
the bound. -/
theorem two_mul_natAbs_lt_factorBound {f : IntPoly} (hf : Trimmed f) (hf0 : f ≠ []) {d : ℤ[X]}
    (hd : d ∣ toPolynomial f) {c : ℤ} (hc : c ∣ f.lead) (i : ℕ) :
    2 * (c * d.coeff i).natAbs < f.factorBound := by
  have hlead := Int.natAbs_pos.2 (hf.lead_ne_zero hf0)
  have hle := Nat.le_of_dvd hlead (Int.natAbs_dvd_natAbs.2 hc)
  have hlt := natAbs_coeff_lt_of_dvd hf hf0 hd i
  have hbound : f.factorBound = 2 * (f.lead.natAbs * (2 ^ f.degree * f.norm)) := by
    rw [factorBound]
    change 2 * f.lead.natAbs * 2 ^ f.degree * f.norm = _
    ring
  rw [hbound, Int.natAbs_mul]
  refine Nat.mul_lt_mul_of_pos_left ?_ Nat.two_pos
  calc c.natAbs * (d.coeff i).natAbs
      ≤ f.lead.natAbs * (d.coeff i).natAbs := Nat.mul_le_mul_right _ hle
    _ < f.lead.natAbs * (2 ^ f.degree * f.norm) := Nat.mul_lt_mul_of_pos_left hlt hlead

/-! ## The exponent of the modulus -/

theorem lt_pow_exponentAbove {p bound steps k : ℕ}
    (h : bound < p ^ (k + steps)) : bound < p ^ exponentAbove p bound steps k (p ^ k) := by
  induction steps generalizing k with
  | zero => exact h
  | succ steps ih =>
    rw [exponentAbove]
    split
    · rw [← pow_succ]
      refine ih ?_
      rwa [show k + 1 + steps = k + (steps + 1) by omega]
    · next hle => exact not_le.1 hle

theorem exponentAbove_pos {p bound steps k m : ℕ} (hk : 0 < k) :
    0 < exponentAbove p bound steps k m := by
  induction steps generalizing k m with
  | zero => exact hk
  | succ steps ih =>
    rw [exponentAbove]
    split
    · exact ih (Nat.succ_pos k)
    · exact hk

theorem liftExponent_pos (p : ℕ) (f : IntPoly) : 0 < liftExponent p f :=
  exponentAbove_pos Nat.one_pos

/-- The modulus that is lifted to exceeds the bound. -/
theorem factorBound_lt_pow {p : ℕ} (hp : 2 ≤ p) (f : IntPoly) :
    f.factorBound < p ^ liftExponent p f := by
  have hbound : f.factorBound < p ^ (1 + (f.factorBound.log2 + 1)) := by
    refine (Nat.lt_log2_self (n := f.factorBound)).trans_le ?_
    refine (Nat.pow_le_pow_left hp _).trans (Nat.pow_le_pow_right (by omega) (by omega))
  have hlt := lt_pow_exponentAbove hbound
  rwa [pow_one] at hlt

end IntPoly
end Meadow
