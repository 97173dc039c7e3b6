import Mathlib
import Meadow.Proofs.Univariate.Integer

set_option autoImplicit false

/-!
# Reduction modulo a prime power

`IntPoly.modulo n` reduces the coefficients of an integer polynomial modulo `n`.  What is
coprime modulo a prime is coprime modulo its powers, as what is one modulo the prime is a
unit there (`IntPoly.isCoprime_modulo_pow`).  So a factorization into coprime monic factors
modulo a prime extends to the powers in one way only: a factor over the integers is, up to
its leading coefficient, the lifted factor that it agrees with modulo the prime
(`IntPoly.modulo_pow_eq_of_associated`).  Small coefficients are recovered from their
residues nearest to zero (`IntPoly.toPolynomial_balanced`).
-/

namespace Meadow

namespace IntPoly

open Polynomial

/-! ## Reduction -/

/-- The polynomial with the residues of the coefficients. -/
noncomputable def modulo (n : ℕ) : ℤ[X] →+* (ZMod n)[X] := mapRingHom (Int.castRingHom (ZMod n))

@[simp] theorem coeff_modulo (n : ℕ) (f : ℤ[X]) (i : ℕ) :
    (modulo n f).coeff i = (f.coeff i : ZMod n) := coeff_map _ _

@[simp] theorem modulo_C (n : ℕ) (c : ℤ) : modulo n (C c) = C (c : ZMod n) := map_C _

@[simp] theorem modulo_X (n : ℕ) : modulo n X = X := map_X _

theorem modulo_surjective (n : ℕ) : Function.Surjective (modulo n) :=
  map_surjective _ (ZMod.ringHom_surjective _)

theorem modulo_eq_zero_iff {n : ℕ} {f : ℤ[X]} : modulo n f = 0 ↔ C (n : ℤ) ∣ f := by
  rw [C_dvd_iff_dvd_coeff, Polynomial.ext_iff]
  refine forall_congr' fun i => ?_
  rw [coeff_modulo, coeff_zero, ZMod.intCast_zmod_eq_zero_iff_dvd]

theorem modulo_eq_iff {n : ℕ} {f g : ℤ[X]} : modulo n f = modulo n g ↔ C (n : ℤ) ∣ f - g := by
  rw [← modulo_eq_zero_iff, map_sub, sub_eq_zero]

/-- What agrees modulo a number agrees modulo its divisors. -/
theorem modulo_eq_of_dvd {m n : ℕ} {f g : ℤ[X]} (hmn : m ∣ n) (h : modulo n f = modulo n g) :
    modulo m f = modulo m g := by
  rw [modulo_eq_iff] at h ⊢
  exact (map_dvd C (Int.natCast_dvd_natCast.2 hmn)).trans h

section Lead

variable {n : ℕ} {f : ℤ[X]} (h : (f.leadingCoeff : ZMod n) ≠ 0)

include h

theorem natDegree_modulo : (modulo n f).natDegree = f.natDegree :=
  natDegree_map_of_leadingCoeff_ne_zero _ h

theorem leadingCoeff_modulo : (modulo n f).leadingCoeff = f.leadingCoeff :=
  leadingCoeff_map_of_leadingCoeff_ne_zero _ h

end Lead

theorem Trimmed.leadingCoeff_modulo {n : ℕ} {a : IntPoly} (h : Trimmed a)
    (hlead : (a.lead : ZMod n) ≠ 0) : (modulo n (toPolynomial a)).leadingCoeff = a.lead := by
  rw [← h.leadingCoeff_eq] at hlead ⊢
  exact IntPoly.leadingCoeff_modulo hlead

/-! ## Prime powers -/

section PrimePower

variable {p k : ℕ}

/-- What is one modulo a number is a unit modulo its powers. -/
theorem isUnit_modulo_pow {f : ℤ[X]} (h : modulo p f = 1) : IsUnit (modulo (p ^ k) f) := by
  have hdvd : C (p : ℤ) ∣ f - 1 := by
    rwa [← modulo_eq_iff, map_one]
  obtain ⟨g, hg⟩ := hdvd
  have hnilpotent : IsNilpotent (modulo (p ^ k) (f - 1)) := by
    refine ⟨k, ?_⟩
    rw [← map_pow, modulo_eq_zero_iff, hg, mul_pow, ← C_pow, Nat.cast_pow]
    exact dvd_mul_right _ _
  have hunit := hnilpotent.isUnit_one_add
  rwa [map_sub, map_one, add_sub_cancel] at hunit

/-- What is coprime modulo a number is coprime modulo its powers. -/
theorem isCoprime_modulo_pow {f g : ℤ[X]} (h : IsCoprime (modulo p f) (modulo p g)) :
    IsCoprime (modulo (p ^ k) f) (modulo (p ^ k) g) := by
  obtain ⟨u, v, huv⟩ := h
  obtain ⟨a, rfl⟩ := modulo_surjective p u
  obtain ⟨b, rfl⟩ := modulo_surjective p v
  rw [← map_mul, ← map_mul, ← map_add] at huv
  obtain ⟨w, hw⟩ := (isUnit_modulo_pow (k := k) huv).exists_left_inv
  rw [map_add, map_mul, map_mul] at hw
  refine ⟨w * modulo (p ^ k) a, w * modulo (p ^ k) b, ?_⟩
  rw [← hw]
  ring

theorem intCast_eq_of_pow (hk : 0 < k) {c d : ℤ} (h : (c : ZMod (p ^ k)) = d) :
    (c : ZMod p) = d := by
  rw [ZMod.intCast_eq_intCast_iff] at h ⊢
  exact h.of_dvd (Int.natCast_dvd_natCast.2 (dvd_pow_self p hk.ne'))

theorem intCast_pow_ne_zero (hk : 0 < k) {c : ℤ} (hc : (c : ZMod p) ≠ 0) :
    (c : ZMod (p ^ k)) ≠ 0 := by
  intro h0
  rw [← Int.cast_zero] at h0
  exact hc ((intCast_eq_of_pow hk h0).trans Int.cast_zero)

/-- Monic polynomials keep their degree from a power to the prime. -/
theorem natDegree_modulo_of_monic [Nontrivial (ZMod p)] (hk : 0 < k) {a : ℤ[X]}
    (ha : (modulo (p ^ k) a).Monic) : (modulo p a).natDegree = (modulo (p ^ k) a).natDegree := by
  have hcomp : (ZMod.castHom (dvd_pow_self p hk.ne') (ZMod p)).comp
      (Int.castRingHom (ZMod (p ^ k))) = Int.castRingHom (ZMod p) := RingHom.ext_int _ _
  have hmap : modulo p a
      = (modulo (p ^ k) a).map (ZMod.castHom (dvd_pow_self p hk.ne') (ZMod p)) := by
    rw [modulo, modulo, coe_mapRingHom, coe_mapRingHom, map_map, hcomp]
  rw [hmap, ha.natDegree_map]

variable [Fact p.Prime]

section Factor

variable {f d e a b : ℤ[X]} (hf : f = d * e) (hlead : (f.leadingCoeff : ZMod p) ≠ 0)

include hf hlead

theorem intCast_leadingCoeff_left_ne_zero : (d.leadingCoeff : ZMod p) ≠ 0 := by
  rw [hf, leadingCoeff_mul, Int.cast_mul] at hlead
  exact left_ne_zero_of_mul hlead

variable (hlift : modulo (p ^ k) f
    = C (f.leadingCoeff : ZMod (p ^ k)) * (modulo (p ^ k) a * modulo (p ^ k) b))
  (hd : Associated (modulo p a) (modulo p d))

include hlift hd

/-- If a factor over the integers agrees with a lifted one modulo the prime, so do the
cofactors. -/
theorem associated_modulo_cofactor (hk : 0 < k) : Associated (modulo p b) (modulo p e) := by
  have hdlead := intCast_leadingCoeff_left_ne_zero hf hlead
  have hmod : modulo p (d * e) = modulo p (C f.leadingCoeff * (a * b)) := by
    refine modulo_eq_of_dvd (dvd_pow_self p hk.ne') ?_
    rw [← hf, hlift, map_mul, map_mul, modulo_C]
  rw [map_mul, map_mul, map_mul, modulo_C] at hmod
  have hunit : IsUnit (C (f.leadingCoeff : ZMod p)) := isUnit_C.2 (isUnit_iff_ne_zero.2 hlead)
  have hassoc : Associated (modulo p a * modulo p b) (modulo p d * modulo p e) := by
    rw [hmod]
    exact (associated_unit_mul_left _ _ hunit).symm
  refine Associated.of_mul_left hassoc hd fun h0 => hdlead ?_
  rw [← leadingCoeff_modulo hdlead, hd.eq_zero_iff.1 h0, leadingCoeff_zero]

/-- A factor over the integers is the lifted factor that it agrees with modulo the prime, up
to its leading coefficient. -/
theorem modulo_pow_eq_of_associated (hk : 0 < k) (ha : (modulo (p ^ k) a).Monic)
    (hcoprime : IsCoprime (modulo p a) (modulo p b)) :
    modulo (p ^ k) d = C (d.leadingCoeff : ZMod (p ^ k)) * modulo (p ^ k) a := by
  have hdlead := intCast_leadingCoeff_left_ne_zero hf hlead
  have hdlead' := intCast_pow_ne_zero hk hdlead
  have hcofactor := associated_modulo_cofactor hf hlead hlift hd hk
  have hcoprime' : IsCoprime (modulo (p ^ k) a) (modulo (p ^ k) e) :=
    isCoprime_modulo_pow (hcoprime.of_isCoprime_of_dvd_right hcofactor.symm.dvd)
  obtain ⟨c, hc⟩ : modulo (p ^ k) a ∣ modulo (p ^ k) d := by
    refine hcoprime'.dvd_of_dvd_mul_right ?_
    rw [← map_mul, ← hf, hlift]
    exact (dvd_mul_right _ _).mul_left _
  have hdegree : (modulo (p ^ k) a).natDegree = (modulo (p ^ k) d).natDegree := by
    rw [← natDegree_modulo_of_monic hk ha, natDegree_eq_of_degree_eq
      (degree_eq_degree_of_associated hd), natDegree_modulo hdlead, natDegree_modulo hdlead']
  have hc0 : c ≠ 0 := by
    rintro rfl
    rw [mul_zero] at hc
    exact hdlead' (by rw [← leadingCoeff_modulo hdlead', hc, leadingCoeff_zero])
  have hconstant : c = C (d.leadingCoeff : ZMod (p ^ k)) := by
    rw [hc, ha.natDegree_mul' hc0, left_eq_add] at hdegree
    rw [eq_C_of_natDegree_eq_zero hdegree, ← leadingCoeff_modulo hdlead', hc,
      leadingCoeff_monic_mul ha, leadingCoeff, hdegree]
  rw [hc, hconstant, mul_comm]

end Factor

end PrimePower

/-! ## Residues nearest to zero -/

theorem modulo_toPolynomial_map {n : ℕ} {f : ℤ → ℤ} (hf : ∀ c : ℤ, (f c : ZMod n) = c)
    (a : IntPoly) : modulo n (toPolynomial (a.map f)) = modulo n (toPolynomial a) := by
  induction a with
  | nil => rfl
  | cons c a ih =>
    rw [List.map_cons, toPolynomial_list_cons, toPolynomial_list_cons, map_add, map_add, map_mul,
      map_mul, ih, modulo_C, modulo_C, hf]

theorem modulo_balanced (m : ℕ) (a : IntPoly) :
    modulo m (toPolynomial (balanced m a)) = modulo m (toPolynomial a) := by
  rw [balanced, toPolynomial_trim]
  refine modulo_toPolynomial_map (fun c => ?_) a
  rw [ZMod.intCast_eq_intCast_iff]
  exact Int.bmod_emod

theorem modulo_residues (m : ℕ) (a : IntPoly) :
    modulo m (toPolynomial (residues m a)) = modulo m (toPolynomial a) := by
  rw [residues, toPolynomial_trim]
  exact modulo_toPolynomial_map (fun c => ZMod.intCast_mod c m) a

theorem trimmed_residues (m : ℕ) (a : IntPoly) : Trimmed (residues m a) := trimmed_trim _

theorem mem_residues {m : ℕ} [NeZero m] {a : IntPoly} {c : ℤ} (h : c ∈ residues m a) :
    0 ≤ c ∧ c < m := by
  obtain ⟨d, -, rfl⟩ := List.mem_map.1 (mem_of_mem_trim h)
  have hm : (0 : ℤ) < m := Int.natCast_pos.2 (NeZero.pos m)
  exact ⟨Int.emod_nonneg d hm.ne', Int.emod_lt_of_pos d hm⟩

/-- Trimmed residues modulo `m`, from zero on. -/
structure Reduced (m : ℕ) (a : IntPoly) : Prop where
  trimmed : Trimmed a
  range : ∀ c ∈ a, 0 ≤ c ∧ c < m

theorem reduced_residues (m : ℕ) [NeZero m] (a : IntPoly) : Reduced m (residues m a) :=
  ⟨trimmed_residues m a, fun _ hc => mem_residues hc⟩

namespace Reduced

variable {m : ℕ} {a : IntPoly}

/-- A leading residue other than zero is not a multiple of the modulus. -/
theorem lead_ne_zero (h : Reduced m a) (ha : a ≠ []) : (a.lead : ZMod m) ≠ 0 := by
  obtain ⟨hnonneg, hlt⟩ := h.range _ (lead_mem ha)
  rw [Ne, ZMod.intCast_zmod_eq_zero_iff_dvd]
  exact fun hdvd => h.trimmed.lead_ne_zero ha
    (Int.eq_zero_of_dvd_of_nonneg_of_lt hnonneg hlt hdvd)

/-- Residues that are monic modulo `m` have the leading coefficient one. -/
theorem lead_eq_one (h : Reduced m a) (hm : 1 < m) (hmonic : (modulo m (toPolynomial a)).Monic) :
    a.lead = 1 := by
  have : Fact (1 < m) := ⟨hm⟩
  have ha : a ≠ [] := by
    rintro rfl
    exact hmonic.ne_zero (by rw [toPolynomial_nil, map_zero])
  obtain ⟨hnonneg, hlt⟩ := h.range _ (lead_mem ha)
  have hlead := h.trimmed.leadingCoeff_modulo (h.lead_ne_zero ha)
  rw [hmonic.leadingCoeff, ← Int.cast_one, ZMod.intCast_eq_intCast_iff_dvd_sub] at hlead
  have hzero := Int.eq_zero_of_abs_lt_dvd hlead (abs_lt.2 ⟨by omega, by omega⟩)
  omega

end Reduced

/-- The last residue is the leading coefficient modulo `m`. -/
theorem leadingCoeff_modulo_residues (m : ℕ) [NeZero m] (a : IntPoly) :
    (modulo m (toPolynomial a)).leadingCoeff = ((residues m a).lead : ZMod m) := by
  have htrimmed := trimmed_residues m a
  rw [← modulo_residues]
  by_cases ha : residues m a = []
  · rw [ha, toPolynomial_nil, map_zero, leadingCoeff_zero]
    exact Int.cast_zero.symm
  · exact htrimmed.leadingCoeff_modulo ((reduced_residues m a).lead_ne_zero ha)

/-- Small coefficients are recovered from their residues. -/
theorem toPolynomial_balanced {m : ℕ} {a : IntPoly} {d : ℤ[X]}
    (h : modulo m (toPolynomial a) = modulo m d) (hd : ∀ i, 2 * (d.coeff i).natAbs < m) :
    toPolynomial (balanced m a) = d := by
  refine Polynomial.ext fun i => ?_
  have hcoeff := congrArg (fun f => f.coeff i) h
  simp only [coeff_modulo] at hcoeff
  rw [ZMod.intCast_eq_intCast_iff] at hcoeff
  have hsmall := hd i
  have hbmod : (d.coeff i).bmod m = d.coeff i :=
    Int.bmod_eq_of_le (by omega) (by omega)
  have hget : (toPolynomial (balanced m a)).coeff i = ((toPolynomial a).coeff i).bmod m := by
    have hzero : (0 : ℤ).bmod m = 0 := Int.zero_bmod
    rw [balanced, toPolynomial_trim, coeff_toPolynomial, coeff_toPolynomial]
    conv_lhs => rw [← hzero]
    exact List.getD_map _ _ fun x : ℤ => x.bmod m
  rw [hget, ← hbmod, ← Int.emod_bmod, hcoeff, Int.emod_bmod]

end IntPoly
end Meadow
