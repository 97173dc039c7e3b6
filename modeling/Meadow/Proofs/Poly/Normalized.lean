import Mathlib
import Meadow.Proofs.Poly.Division

set_option autoImplicit false

/-!
# Canonical associates

The canonical associate is a rational multiple other than zero
(`Poly.associated_normalized`).  Its coefficients are coprime integers, the leading one
positive (`Poly.canonical_normalized`).
-/

namespace Meadow

namespace Poly

/-- A least common multiple is a multiple of every number listed. -/
theorem dvd_foldr_lcm {α : Type} {f : α → ℕ} {l : List α} {a : α} (h : a ∈ l) :
    f a ∣ l.foldr (fun b d => (f b).lcm d) 1 := by
  induction l with
  | nil => cases h
  | cons b l ih =>
    rw [List.foldr_cons]
    rcases List.mem_cons.1 h with rfl | h
    · exact Nat.dvd_lcm_left _ _
    · exact (ih h).trans (Nat.dvd_lcm_right _ _)

/-- A greatest common divisor divides every number listed. -/
theorem foldr_gcd_dvd {α : Type} {f : α → ℕ} {l : List α} {a : α} (h : a ∈ l) :
    l.foldr (fun b g => (f b).gcd g) 0 ∣ f a := by
  induction l with
  | nil => cases h
  | cons b l ih =>
    rw [List.foldr_cons]
    rcases List.mem_cons.1 h with rfl | h
    · exact Nat.gcd_dvd_left _ _
    · exact (Nat.gcd_dvd_right _ _).trans (ih h)

theorem den_dvd_commonDenominator {p : Poly} {t : Monomial × ℚ} (h : t ∈ p.terms) :
    t.2.den ∣ p.commonDenominator :=
  dvd_foldr_lcm (f := fun t : Monomial × ℚ => t.2.den) h

theorem commonNumerator_dvd {p : Poly} {t : Monomial × ℚ} (h : t ∈ p.terms) :
    p.commonNumerator ∣ t.2.num.natAbs * (p.commonDenominator / t.2.den) :=
  foldr_gcd_dvd (f := fun t : Monomial × ℚ => t.2.num.natAbs * (p.commonDenominator / t.2.den)) h

theorem commonDenominator_ne_zero (p : Poly) : p.commonDenominator ≠ 0 := by
  have main (ts : List (Monomial × ℚ)) : ts.foldr (fun t d => t.2.den.lcm d) 1 ≠ 0 := by
    induction ts with
    | nil => exact one_ne_zero
    | cons t ts ih =>
      rw [List.foldr_cons]
      exact Nat.lcm_ne_zero t.2.den_nz ih
  exact main p.terms

theorem commonNumerator_ne_zero {p : Poly} (hp : p ≠ 0) : p.commonNumerator ≠ 0 := by
  intro h
  obtain ⟨m, c, hm⟩ := exists_leadingTerm? hp
  have hmem : (m, c) ∈ p.terms := List.mem_of_mem_head? hm
  have hdvd := commonNumerator_dvd hmem
  rw [h, zero_dvd_iff, mul_eq_zero, Int.natAbs_eq_zero, Rat.num_eq_zero] at hdvd
  rcases hdvd with h0 | h0
  · exact p.coeffs.nonzero _ hmem h0
  · have hle := Nat.le_of_dvd (Nat.pos_of_ne_zero (commonDenominator_ne_zero p))
      (den_dvd_commonDenominator hmem)
    have hpos := Nat.div_pos hle c.den_pos
    omega

theorem normalizer_ne_zero {p : Poly} (hp : p ≠ 0) : p.normalizer ≠ 0 := by
  have hfactor : mkRat p.commonDenominator p.commonNumerator ≠ 0 := by
    rw [Ne, Rat.mkRat_eq_zero (commonNumerator_ne_zero hp)]
    exact_mod_cast commonDenominator_ne_zero p
  unfold normalizer
  dsimp only
  split
  · exact neg_ne_zero.2 hfactor
  · exact hfactor

/-- The canonical associate is a multiple of the polynomial. -/
theorem normalized_eq_mul {p : Poly} (hp : p ≠ 0) :
    p.normalized = constant p.normalizer * p := by
  rw [normalized, isZero_eq_false_iff.2 hp, if_neg Bool.false_ne_true, scale_eq_mul]

@[simp] theorem normalized_zero : (0 : Poly).normalized = 0 := rfl

theorem isUnit_constant {c : ℚ} (hc : c ≠ 0) : IsUnit (constant c) :=
  isUnit_iff.2 ⟨isConstant_iff.2 ⟨c, rfl⟩, fun h => hc (constant_eq_zero_iff.1 h)⟩

theorem associated_normalized (p : Poly) : Associated p p.normalized := by
  by_cases hp : p = 0
  · rw [hp, normalized_zero]
  · rw [normalized_eq_mul hp]
    exact (associated_unit_mul_left p _ (isUnit_constant (normalizer_ne_zero hp))).symm

theorem normalized_ne_zero {p : Poly} (hp : p ≠ 0) : p.normalized ≠ 0 := fun h =>
  hp ((associated_normalized p).eq_zero_iff.2 h)

/-- Coprime integer coefficients, the leading one positive. -/
structure Canonical (p : Poly) : Prop where
  integral (m : Monomial) : ∃ n : ℤ, p.coeff m = n
  coprime (d : ℕ) (h : ∀ m, ∃ n : ℤ, p.coeff m = d * n) : d = 1
  pos : 0 < p.leadingCoeff

/-- Over the common denominator, the coefficients are the common numerator times integers. -/
theorem exists_mkRat_mul_coeff {p : Poly} (hp : p ≠ 0) (m : Monomial) :
    ∃ n : ℤ, mkRat p.commonDenominator p.commonNumerator * p.coeff m = n ∧
      n.natAbs * p.commonNumerator
        = (p.coeff m).num.natAbs * (p.commonDenominator / (p.coeff m).den) := by
  by_cases hm : p.coeff m = 0
  · exact ⟨0, by rw [hm, mul_zero, Int.cast_zero], by rw [hm]; simp⟩
  have hmem := mem_terms_of_coeff_ne_zero hm
  obtain ⟨k, hk⟩ := den_dvd_commonDenominator hmem
  obtain ⟨l, hl⟩ := commonNumerator_dvd hmem
  set c := p.coeff m with hc
  have hN : (p.commonNumerator : ℚ) ≠ 0 := by exact_mod_cast commonNumerator_ne_zero hp
  have hk' : p.commonDenominator / c.den = k := by
    rw [hk, Nat.mul_div_cancel_left _ c.den_pos]
  have hl' := hl
  rw [hk'] at hl
  have hnum : (c.num : ℚ) * k = c.num.sign * (p.commonNumerator * l) := by
    have habs : (c.num : ℚ) = c.num.sign * c.num.natAbs := by
      rw [← Int.cast_natCast, ← Int.cast_mul, Int.sign_mul_natAbs]
    rw [habs, mul_assoc]
    congr 1
    exact_mod_cast hl
  refine ⟨c.num.sign * l, ?_, ?_⟩
  · have hcd : c * c.den = c.num := Rat.mul_den_eq_num c
    rw [Rat.mkRat_eq_div, hk]
    push_cast
    field_simp
    linear_combination (k : ℚ) * hcd + hnum
  · have hsign : c.num.sign.natAbs = 1 := Int.natAbs_sign_of_ne_zero (Rat.num_ne_zero.2 hm)
    rw [hl', Int.natAbs_mul, hsign, one_mul, Int.natAbs_natCast, mul_comm]

theorem normalizer_eq (p : Poly) :
    p.normalizer = mkRat p.commonDenominator p.commonNumerator ∨
      p.normalizer = -mkRat p.commonDenominator p.commonNumerator := by
  unfold normalizer
  dsimp only
  split
  · exact Or.inr rfl
  · exact Or.inl rfl

/-- The coefficients of the canonical associate are integers. -/
theorem exists_int_coeff_normalized (p : Poly) (m : Monomial) :
    ∃ n : ℤ, p.normalized.coeff m = n := by
  by_cases hp : p = 0
  · exact ⟨0, by rw [hp, normalized_zero]; rfl⟩
  obtain ⟨n, hn, -⟩ := exists_mkRat_mul_coeff hp m
  rw [normalized_eq_mul hp, ← scale_eq_mul, coeff_scale]
  rcases p.normalizer_eq with h | h
  · exact ⟨n, by rw [h, hn]⟩
  · exact ⟨-n, by rw [h, neg_mul, hn, Int.cast_neg]⟩

/-- What divides all numbers listed divides their greatest common divisor. -/
theorem dvd_foldr_gcd {α : Type} {f : α → ℕ} {l : List α} {d : ℕ} (h : ∀ a ∈ l, d ∣ f a) :
    d ∣ l.foldr (fun b g => (f b).gcd g) 0 := by
  induction l with
  | nil => exact dvd_zero d
  | cons a l ih =>
    exact Nat.dvd_gcd (h a List.mem_cons_self) (ih fun b hb => h b (List.mem_cons_of_mem a hb))

/-- A divisor of all coefficients of the canonical associate, times the common numerator,
divides the common numerator. -/
theorem eq_one_of_dvd_coeff_normalized {p : Poly} (hp : p ≠ 0) {d : ℕ}
    (h : ∀ m, ∃ n : ℤ, p.normalized.coeff m = d * n) : d = 1 := by
  have hN := commonNumerator_ne_zero hp
  have hdvd : d * p.commonNumerator ∣ p.commonNumerator := by
    refine dvd_foldr_gcd (f := fun t : Monomial × ℚ =>
      t.2.num.natAbs * (p.commonDenominator / t.2.den)) fun t ht => ?_
    obtain ⟨n, hn, hnum⟩ := exists_mkRat_mul_coeff hp t.1
    obtain ⟨k, hk⟩ := h t.1
    rw [normalized_eq_mul hp, ← scale_eq_mul, coeff_scale] at hk
    rw [coeff_of_mem ht] at hn hnum hk
    rw [← hnum]
    refine Nat.mul_dvd_mul_right (Int.natCast_dvd.1 ?_) _
    rcases p.normalizer_eq with h | h
    · exact ⟨k, by rw [h, hn] at hk; exact_mod_cast hk⟩
    · refine ⟨-k, ?_⟩
      rw [h, neg_mul, hn] at hk
      have hk' : -n = d * k := by exact_mod_cast hk
      linear_combination -hk'
  have hle := Nat.le_of_dvd (Nat.pos_of_ne_zero hN) hdvd
  have hd0 : d ≠ 0 := by
    rintro rfl
    exact hN (Nat.eq_zero_of_zero_dvd (by rwa [zero_mul] at hdvd))
  have hd1 : d ≤ 1 := Nat.le_of_mul_le_mul_right (by rwa [one_mul]) (Nat.pos_of_ne_zero hN)
  omega

theorem leadingCoeff_normalized_pos {p : Poly} (hp : p ≠ 0) : 0 < p.normalized.leadingCoeff := by
  have hlead : p.leadingCoeff ≠ 0 := fun h => hp (leadingCoeff_eq_zero_iff.1 h)
  have hfactor : 0 < mkRat p.commonDenominator p.commonNumerator := by
    rw [Rat.mkRat_eq_div]
    have hD := Nat.pos_of_ne_zero (commonDenominator_ne_zero p)
    have hN := Nat.pos_of_ne_zero (commonNumerator_ne_zero hp)
    exact div_pos (by exact_mod_cast hD) (by exact_mod_cast hN)
  rw [normalized_eq_mul hp, leadingCoeff_mul, leadingCoeff_constant, normalizer]
  split
  · next hneg => exact mul_pos_of_neg_of_neg (neg_neg_of_pos hfactor) hneg
  · next hneg => exact mul_pos hfactor (lt_of_le_of_ne (not_lt.1 hneg) hlead.symm)

/-- The canonical associate is canonical. -/
theorem canonical_normalized {p : Poly} (hp : p ≠ 0) : p.normalized.Canonical :=
  ⟨exists_int_coeff_normalized p, fun _ => eq_one_of_dvd_coeff_normalized hp,
    leadingCoeff_normalized_pos hp⟩

theorem canonical_var (v : String) : (var v).Canonical := by
  have hlead : (var v).leadingCoeff = 1 := rfl
  refine ⟨fun m => ?_, fun d h => ?_, by rw [hlead]; exact one_pos⟩
  · rw [var, coeff_monomial]
    split
    · exact ⟨1, Int.cast_one.symm⟩
    · exact ⟨0, Int.cast_zero.symm⟩
  · obtain ⟨n, hn⟩ := h (.power v 1)
    rw [var, coeff_monomial, if_pos rfl] at hn
    have hone : (d : ℤ) * n = 1 := by exact_mod_cast hn.symm
    exact_mod_cast Int.eq_one_of_mul_eq_one_right (Int.natCast_nonneg d) hone

end Poly
end Meadow
