import Mathlib
import Meadow.Proofs.Univariate.Integer

set_option autoImplicit false

/-!
# Exact division of integer polynomials

Where the divisor does divide, the division finds the quotient
(`IntPoly.exists_divExact?_eq_some`).  What has been read of the dividend has a quotient and
a remainder over the integers then, so no leading coefficient on the way fails to be a
multiple of the divisor's.  With that, the division decides divisibility
(`IntPoly.divExact?_iff_dvd`): lists without trailing zeros are equal if they stand for the
same polynomial (`IntPoly.Trimmed.ext`), so the quotient it returns is the only one.
-/

namespace Meadow

namespace IntPoly

open Polynomial

theorem Trimmed.addScaled {c : IntPoly} (h : Trimmed c) (x : ℤ) (b : IntPoly) :
    Trimmed (addScaled x b c) := by
  induction b generalizing c with
  | nil => exact h
  | cons y b ih =>
    cases c with
    | nil => exact (ih trimmed_nil).cons _
    | cons z c => exact (ih h.tail).cons _

/-- The coefficients of a polynomial are determined up to trailing zeros. -/
theorem Trimmed.ext {a b : IntPoly} (ha : Trimmed a) (hb : Trimmed b)
    (h : toPolynomial a = toPolynomial b) : a = b := by
  induction a generalizing b with
  | nil => exact (hb.toPolynomial_eq_zero_iff.1 h.symm).symm
  | cons c a ih =>
    cases b with
    | nil => exact ha.toPolynomial_eq_zero_iff.1 h
    | cons d b =>
      rw [toPolynomial_list_cons, toPolynomial_list_cons] at h
      have hhead := congrArg (coeff · 0) h
      simp only [coeff_add, coeff_C_zero, coeff_X_mul_zero, add_zero] at hhead
      rw [hhead] at h ⊢
      rw [ih ha.tail hb.tail (mul_left_cancel₀ X_ne_zero (add_left_cancel h))]

/-- One coefficient more: what the quotient and the remainder were without it. -/
theorem exists_remainder_divX {b Q R A : ℤ[X]} {c : ℤ} (hdeg : R.degree < b.degree)
    (h : C c + X * A = Q * b + R) : ∃ S : ℤ[X], A = Q.divX * b + S ∧ S.degree < b.degree := by
  have hb : b ≠ 0 := by
    rintro rfl
    exact absurd hdeg (by simp)
  refine ⟨A - Q.divX * b, by ring, ?_⟩
  have hmul : X * (A - Q.divX * b) = C (Q.coeff 0) * b + R - C c := by
    have hQ := Polynomial.X_mul_divX_add Q
    linear_combination h - b * hQ
  have hle : (X * (A - Q.divX * b)).degree ≤ b.degree := by
    rw [hmul]
    refine (degree_sub_le _ _).trans (max_le ((degree_add_le _ _).trans (max_le ?_ hdeg.le)) ?_)
    · rw [C_mul']
      exact degree_smul_le _ _
    · exact degree_C_le.trans (zero_le_degree_iff.2 hb)
  by_cases hS : A - Q.divX * b = 0
  · rw [hS, degree_zero]
    exact bot_lt_iff_ne_bot.2 (mt degree_eq_bot.1 hb)
  · rw [degree_mul, degree_X, degree_eq_natDegree hS, degree_eq_natDegree hb] at hle
    rw [degree_eq_natDegree hS, degree_eq_natDegree hb]
    have hnat : 1 + (A - Q.divX * b).natDegree ≤ b.natDegree := by exact_mod_cast hle
    exact_mod_cast (by omega : (A - Q.divX * b).natDegree < b.natDegree)

/-- No multiple of the divisor but zero goes into what has a lower degree. -/
theorem quotient_eq_zero {b Q R : ℤ[X]} (hdeg : R.degree < b.degree)
    (h : (Q * b + R).degree < b.degree) : Q = 0 := by
  have hb : b ≠ 0 := by
    rintro rfl
    exact absurd hdeg (by simp)
  have hlt : (Q * b).degree < b.degree := by
    have hsub := (degree_sub_le (Q * b + R) R).trans_lt (max_lt h hdeg)
    rwa [add_sub_cancel_right] at hsub
  have hzero := eq_zero_of_dvd_of_degree_lt (Dvd.intro_left Q rfl) hlt
  exact (mul_eq_zero.1 hzero).resolve_right hb

section Steps

variable {b r : IntPoly} {R : ℤ[X]} {x : ℤ} (hb : Trimmed b) (hb0 : b ≠ [])
  (hdeg : R.degree < (toPolynomial b).degree)

include hb hb0

theorem degree_eq_length : (toPolynomial b).degree = (b.length - 1 : ℕ) := by
  rw [degree_eq_natDegree (hb.toPolynomial_ne_zero hb0), hb.natDegree_eq hb0]

include hdeg

/-- Nothing is taken off what is shorter than the divisor. -/
theorem eq_zero_of_length_lt (h : toPolynomial r = C x * toPolynomial b + R)
    (hshort : r.length < b.length) : x = 0 := by
  rw [← C_eq_zero (R := ℤ)]
  refine quotient_eq_zero hdeg ?_
  rw [← h, degree_eq_length hb hb0]
  refine (degree_toPolynomial_lt r).trans_le ?_
  exact_mod_cast (by omega : r.length ≤ b.length - 1)

/-- The leading coefficient of what is as long as the divisor is a multiple of the divisor's. -/
theorem lead_eq_of_length_le (hr : Trimmed r) (h : toPolynomial r = C x * toPolynomial b + R)
    (hlong : b.length ≤ r.length) : r.lead = x * b.lead := by
  have hpos := List.length_pos_of_ne_nil hb0
  have hne : r ≠ [] := List.ne_nil_of_length_pos (hpos.trans_le hlong)
  have hle : (toPolynomial r).degree ≤ (toPolynomial b).degree := by
    rw [h, C_mul']
    exact (degree_add_le _ _).trans (max_le (degree_smul_le _ _) hdeg.le)
  have hlength : r.length - 1 = b.length - 1 := by
    have hnat := natDegree_le_natDegree hle
    rw [hr.natDegree_eq hne, hb.natDegree_eq hb0] at hnat
    omega
  rw [degree_eq_length hb hb0] at hdeg
  rw [← coeff_length_sub_one, hlength, h, coeff_add, coeff_C_mul, coeff_length_sub_one,
    coeff_eq_zero_of_degree_lt hdeg, add_zero]

/-- One step: where there is a quotient, the leading coefficient of what is left is a multiple of
the divisor's. -/
theorem exists_divideStep {q : IntPoly} {c : ℤ} {Q : ℤ[X]} (hq : Trimmed q)
    (hQ : toPolynomial q = Q.divX) (hr : Trimmed r)
    (h : toPolynomial (IntPoly.cons c r) = C (Q.coeff 0) * toPolynomial b + R) :
    ∃ q' r', divideStep b c (some (q, r)) = some (q', r') ∧ Trimmed q' ∧ toPolynomial q' = Q ∧
      Trimmed r' ∧ toPolynomial r' = R := by
  have hquotient : toPolynomial (IntPoly.cons (Q.coeff 0) q) = Q := by
    rw [toPolynomial_cons, hQ, add_comm]
    exact Polynomial.X_mul_divX_add Q
  rw [divideStep]
  dsimp only
  split
  · next hshort =>
    have hzero := eq_zero_of_length_lt hb hb0 hdeg h hshort
    rw [hzero] at h hquotient
    rw [C_0, zero_mul, zero_add] at h
    exact ⟨_, _, rfl, hq.cons 0, hquotient, hr.cons c, h⟩
  · next hlong =>
    have hlead := lead_eq_of_length_le hb hb0 hdeg (hr.cons c) h (not_lt.1 hlong)
    rw [if_pos (by rw [hlead, Int.mul_emod_left]), hlead,
      Int.mul_ediv_cancel _ (hb.lead_ne_zero hb0)]
    refine ⟨_, _, rfl, hq.cons _, hquotient, (hr.cons c).addScaled _ _, ?_⟩
    rw [toPolynomial_addScaled, h, C_neg]
    ring

/-- The division reads a dividend that has a quotient and a remainder down to them. -/
theorem exists_divideSteps {a : IntPoly} {Q : ℤ[X]} (h : toPolynomial a = Q * toPolynomial b + R) :
    ∃ q r, a.foldr (divideStep b) (some ([], [])) = some (q, r) ∧ Trimmed q ∧
      toPolynomial q = Q ∧ Trimmed r ∧ toPolynomial r = R := by
  induction a generalizing Q R with
  | nil =>
    rw [toPolynomial_nil] at h
    have hQ : Q = 0 := by
      refine quotient_eq_zero hdeg ?_
      rw [← h, degree_zero]
      exact bot_lt_iff_ne_bot.2 (mt degree_eq_bot.1 (hb.toPolynomial_ne_zero hb0))
    rw [hQ, zero_mul, zero_add] at h
    exact ⟨[], [], rfl, trimmed_nil, hQ.symm, trimmed_nil, h⟩
  | cons c a ih =>
    rw [toPolynomial_list_cons] at h
    obtain ⟨S, hA, hS⟩ := exists_remainder_divX hdeg h
    obtain ⟨q, r, hsteps, hq, hQ, hr, hR⟩ := ih hS hA
    rw [List.foldr_cons, hsteps]
    refine exists_divideStep hb hb0 hdeg hq hQ hr ?_
    have hdivX := Polynomial.X_mul_divX_add Q
    rw [toPolynomial_cons, hR]
    rw [hA] at h
    linear_combination h - toPolynomial b * hdivX

end Steps

/-- A divisor's constant coefficient divides that of the dividend. -/
theorem headD_dvd_of_dvd {a b : IntPoly} (h : toPolynomial b ∣ toPolynomial a) :
    b.headD 0 ∣ a.headD 0 := by
  have hhead (d : IntPoly) : (toPolynomial d).coeff 0 = d.headD 0 := by
    rw [coeff_toPolynomial]
    cases d with
    | nil => rfl
    | cons c d => rfl
  obtain ⟨Q, hQ⟩ := h
  rw [← hhead, ← hhead, hQ, mul_coeff_zero]
  exact dvd_mul_right _ _

/-- A divisor other than zero is found to divide. -/
theorem exists_divExact?_eq_some {a b : IntPoly} (ha : Trimmed a) (ha0 : a ≠ [])
    (hb : Trimmed b) (h : toPolynomial b ∣ toPolynomial a) :
    ∃ q, divExact? a b = some q ∧ Trimmed q := by
  have hA : toPolynomial a ≠ 0 := ha.toPolynomial_ne_zero ha0
  have hb0 : b ≠ [] := by
    rintro rfl
    exact hA (zero_dvd_iff.1 h)
  have hB : toPolynomial b ≠ 0 := hb.toPolynomial_ne_zero hb0
  have hlength : ¬ a.length < b.length := by
    have hle := natDegree_le_of_dvd h hA
    rw [ha.natDegree_eq ha0, hb.natDegree_eq hb0] at hle
    have hpos := List.length_pos_of_ne_nil ha0
    omega
  have hconstant : ¬ (b.headD 0 ≠ 0 ∧ a.headD 0 % b.headD 0 ≠ 0) := fun hhead =>
    hhead.2 (Int.emod_eq_zero_of_dvd (headD_dvd_of_dvd h))
  obtain ⟨Q, hQ⟩ := h
  have hdeg : (0 : ℤ[X]).degree < (toPolynomial b).degree := by
    rw [degree_zero]
    exact bot_lt_iff_ne_bot.2 (mt degree_eq_bot.1 hB)
  obtain ⟨q, r, hsteps, hq, -, hr, hR⟩ := exists_divideSteps (a := a) hb hb0 hdeg
    (by rw [hQ, mul_comm, add_zero])
  refine ⟨q, ?_, hq⟩
  rw [divExact?, if_neg, if_neg hconstant, hsteps, hr.toPolynomial_eq_zero_iff.1 hR]
  rw [Bool.or_eq_true, List.isEmpty_iff, decide_eq_true_eq, not_or]
  exact ⟨hb0, hlength⟩

theorem trimmed_of_divExact?_eq_some {a b q : IntPoly} (ha : Trimmed a) (ha0 : a ≠ [])
    (hb : Trimmed b) (h : divExact? a b = some q) : Trimmed q := by
  obtain ⟨q', hq', hq⟩ := exists_divExact?_eq_some ha ha0 hb
    (Dvd.intro_left _ (toPolynomial_divExact? h).symm)
  rw [h] at hq'
  rwa [Option.some.inj hq']

/-- The division of a polynomial by another one, neither of them zero, returns the quotient if
there is one over the integers, as the only list without trailing zeros that stands for it, and
nothing otherwise; where the constant coefficients end it at once, there is none. -/
theorem divExact?_iff_dvd {a b : IntPoly} (ha : Trimmed a) (ha0 : a ≠ []) (hb : Trimmed b)
    (hb0 : b ≠ []) :
    (∀ q, divExact? a b = some q ↔
      Trimmed q ∧ toPolynomial a = toPolynomial q * toPolynomial b) ∧
    (divExact? a b = none ↔ ¬ ∃ Q : ℤ[X], toPolynomial a = Q * toPolynomial b) ∧
    (b.headD 0 ≠ 0 ∧ a.headD 0 % b.headD 0 ≠ 0 →
      ¬ ∃ Q : ℤ[X], toPolynomial a = Q * toPolynomial b) := by
  have hB : toPolynomial b ≠ 0 := hb.toPolynomial_ne_zero hb0
  have hdvd : (∃ Q : ℤ[X], toPolynomial a = Q * toPolynomial b) ↔
      toPolynomial b ∣ toPolynomial a := dvd_iff_exists_eq_mul_left.symm
  rw [hdvd]
  refine ⟨fun q => ⟨fun h => ?_, fun ⟨hq, hmul⟩ => ?_⟩, ⟨fun hnone hdiv => ?_, fun hdiv => ?_⟩, ?_⟩
  · exact ⟨trimmed_of_divExact?_eq_some ha ha0 hb h, toPolynomial_divExact? h⟩
  · obtain ⟨q', hsome, hq'⟩ := exists_divExact?_eq_some ha ha0 hb (Dvd.intro_left _ hmul.symm)
    have hunique : toPolynomial q' = toPolynomial q :=
      mul_right_cancel₀ hB ((toPolynomial_divExact? hsome).symm.trans hmul)
    rw [hsome, hq'.ext hq hunique]
  · obtain ⟨q, hsome, -⟩ := exists_divExact?_eq_some ha ha0 hb hdiv
    rw [hnone] at hsome
    cases hsome
  · rw [Option.eq_none_iff_forall_ne_some]
    intro q hsome
    exact hdiv (Dvd.intro_left _ (toPolynomial_divExact? hsome).symm)
  · rintro ⟨-, hconstant⟩ hdiv
    exact hconstant (Int.emod_eq_zero_of_dvd (headD_dvd_of_dvd hdiv))

/-- The polynomial `6 * x ^ 2 - x - 2` is `3 * x - 2` times `2 * x + 1`, and no multiple of
`x + 2` although the constant coefficients do not tell. -/
theorem divExact?_iff_dvd_quadratic :
    toPolynomial [-2, -1, 6] = toPolynomial [-2, 3] * toPolynomial [1, 2] ∧
      ¬ ∃ Q : ℤ[X], toPolynomial [-2, -1, 6] = Q * toPolynomial [2, 1] := by
  have htrimmed : Trimmed [-2, -1, 6] := by simp [Trimmed]
  have hlinear {c d : ℤ} (hd : d ≠ 0) : Trimmed [c, d] := by simpa [Trimmed] using hd
  have hfound := divExact?_iff_dvd htrimmed (List.cons_ne_nil _ _)
    (hlinear (c := 1) (d := 2) (by decide)) (List.cons_ne_nil _ _)
  have hnone := divExact?_iff_dvd htrimmed (List.cons_ne_nil _ _)
    (hlinear (c := 2) (d := 1) (by decide)) (List.cons_ne_nil _ _)
  exact ⟨((hfound.1 [-2, 3]).1 (by decide)).2, hnone.2.1.1 (by decide)⟩

end IntPoly
end Meadow
