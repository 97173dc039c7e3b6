import Mathlib
import Meadow.Proofs.Poly.CanonicalFactors

set_option autoImplicit false

/-!
# Radicals

Products of canonical polynomials are canonical (`Poly.Canonical.mul`), and canonical
associates are equal (`Poly.Canonical.eq_of_associated`).  So the radical, a squarefree
product of canonical factors, is determined by the irreducible divisors it shares with the
polynomial (`Poly.radical_eq_radical_iff`), and does not depend on how the polynomial was
split.  How it is split does differ: a part that is too large is kept whole, and the same
part may come in pieces if a multiplicity tells them apart.
-/

namespace Meadow.Poly

/-! ## Products of canonical polynomials -/

/-- A canonical polynomial is one with integer coefficients. -/
theorem Canonical.exists_int {p : Poly} (h : p.Canonical) :
    ∃ f : MvPolynomial String ℤ, MvPolynomial.map (Int.castRingHom ℚ) f = p.toMv := by
  refine MvPolynomial.mem_range_map_iff_coeffs_subset.2 ?_
  intro c hc
  obtain ⟨e, -, rfl⟩ := MvPolynomial.mem_coeffs_iff.1 hc
  obtain ⟨m, rfl⟩ := Monomial.toFinsupp_surjective e
  obtain ⟨n, hn⟩ := h.integral m
  exact ⟨n, by rw [coeff_toMv, hn]; rfl⟩

theorem coeff_eq_intCast {p : Poly} {f : MvPolynomial String ℤ}
    (h : MvPolynomial.map (Int.castRingHom ℚ) f = p.toMv) (m : Monomial) :
    p.coeff m = (f.coeff m.toFinsupp : ℤ) := by
  rw [← coeff_toMv, ← h, MvPolynomial.coeff_map]
  rfl

/-- No prime divides all coefficients of a canonical polynomial. -/
theorem Canonical.map_zmod_ne_zero {p : Poly} (h : p.Canonical) {f : MvPolynomial String ℤ}
    (hf : MvPolynomial.map (Int.castRingHom ℚ) f = p.toMv) {l : ℕ} (hl : l.Prime) :
    MvPolynomial.map (Int.castRingHom (ZMod l)) f ≠ 0 := by
  intro h0
  refine hl.ne_one (h.coprime l fun m => ?_)
  have hcoeff := congrArg (MvPolynomial.coeff m.toFinsupp) h0
  rw [MvPolynomial.coeff_map, MvPolynomial.coeff_zero, eq_intCast,
    ZMod.intCast_zmod_eq_zero_iff_dvd] at hcoeff
  obtain ⟨n, hn⟩ := hcoeff
  exact ⟨n, by rw [coeff_eq_intCast hf, hn]; push_cast; rfl⟩

/-- The product of canonical polynomials is canonical: modulo a prime, neither of them is
zero, and so neither is the product. -/
theorem Canonical.mul {p q : Poly} (hp : p.Canonical) (hq : q.Canonical) :
    (p * q).Canonical := by
  obtain ⟨f, hf⟩ := hp.exists_int
  obtain ⟨g, hg⟩ := hq.exists_int
  have hfg : MvPolynomial.map (Int.castRingHom ℚ) (f * g) = (p * q).toMv := by
    rw [map_mul, hf, hg, ← mul_def, toMv_mul]
  refine ⟨fun m => ⟨_, coeff_eq_intCast hfg m⟩, fun d h => ?_, ?_⟩
  · by_contra hd
    obtain ⟨l, hl, k, rfl⟩ := Nat.exists_prime_and_dvd hd
    have := Fact.mk hl
    have hzero : MvPolynomial.map (Int.castRingHom (ZMod l)) (f * g) = 0 := by
      ext e
      obtain ⟨m, rfl⟩ := Monomial.toFinsupp_surjective e
      obtain ⟨n, hn⟩ := h m
      rw [coeff_eq_intCast hfg] at hn
      have hint : (f * g).coeff m.toFinsupp = l * (k * n) := by
        rw [← mul_assoc]
        exact_mod_cast hn
      rw [MvPolynomial.coeff_map, MvPolynomial.coeff_zero, eq_intCast,
        ZMod.intCast_zmod_eq_zero_iff_dvd, hint]
      exact Dvd.intro _ rfl
    rw [map_mul] at hzero
    rcases mul_eq_zero.1 hzero with h0 | h0
    · exact hp.map_zmod_ne_zero hf hl h0
    · exact hq.map_zmod_ne_zero hg hl h0
  · rw [leadingCoeff_mul]
    exact mul_pos hp.pos hq.pos

theorem canonical_one : (1 : Poly).Canonical := by
  have hcoeff : (1 : Poly).coeff .one = 1 := by rw [← one_def, one, coeff_constant, if_pos rfl]
  refine ⟨fun m => ?_, fun d h => ?_, one_pos⟩
  · rw [← one_def, one, coeff_constant]
    split
    · exact ⟨1, Int.cast_one.symm⟩
    · exact ⟨0, Int.cast_zero.symm⟩
  · obtain ⟨n, hn⟩ := h .one
    rw [hcoeff] at hn
    have hone : (d : ℤ) * n = 1 := by exact_mod_cast hn.symm
    exact_mod_cast Int.eq_one_of_mul_eq_one_right (Int.natCast_nonneg d) hone

theorem canonical_prod {l : List Poly} (h : ∀ f ∈ l, f.Canonical) : l.prod.Canonical := by
  induction l with
  | nil => exact canonical_one
  | cons f l ih =>
    rw [List.prod_cons]
    exact (h f List.mem_cons_self).mul (ih fun g hg => h g (List.mem_cons_of_mem f hg))

/-! ## Canonical associates -/

/-- A rational that takes a canonical polynomial to one with integer coefficients is an
integer. -/
theorem Canonical.den_eq_one {p q : Poly} (hp : p.Canonical) (hq : q.Canonical) {c : ℚ}
    (h : ∀ m, q.coeff m = c * p.coeff m) : c.den = 1 := by
  refine hp.coprime c.den fun m => ?_
  obtain ⟨a, ha⟩ := hp.integral m
  obtain ⟨b, hb⟩ := hq.integral m
  have heq : (c.den : ℤ) * b = c.num * a := by
    have hm := h m
    have hc : c * c.den = c.num := Rat.mul_den_eq_num c
    rw [ha, hb] at hm
    have hcast : (c.den : ℚ) * b = c.num * a := by
      rw [hm, ← hc]
      ring
    exact_mod_cast hcast
  have hgcd : Int.gcd c.num c.den = 1 := c.reduced
  have hcoprime : IsCoprime (c.den : ℤ) c.num := (Int.isCoprime_iff_gcd_eq_one.2 hgcd).symm
  obtain ⟨n, hn⟩ := hcoprime.dvd_of_dvd_mul_left (Dvd.intro _ heq)
  exact ⟨n, by rw [ha, hn]; push_cast; rfl⟩

/-- Canonical associates are equal. -/
theorem Canonical.eq_of_associated {p q : Poly} (hp : p.Canonical) (hq : q.Canonical)
    (h : Associated p q) : p = q := by
  obtain ⟨u, rfl⟩ := h
  obtain ⟨c, hc⟩ := isConstant_iff.1 (isUnit_iff.1 u.isUnit).1
  rw [hc, mul_comm, ← scale_eq_mul] at hq ⊢
  have hpos : 0 < c := by
    have hlead := hq.pos
    rw [scale_eq_mul, leadingCoeff_mul, leadingCoeff_constant] at hlead
    exact pos_of_mul_pos_left hlead hp.pos.le
  have hden := hp.den_eq_one hq fun m => coeff_scale c p m
  have hinv := hq.den_eq_one hp (c := c⁻¹) fun m => by
    rw [coeff_scale, inv_mul_cancel_left₀ hpos.ne']
  have hnum : c.num = 1 := by
    have hnat : c.num.natAbs = 1 := by
      rwa [Rat.den_inv, if_neg (Rat.num_ne_zero.2 hpos.ne')] at hinv
    have hnonneg := Rat.num_pos.2 hpos
    omega
  have hone : c = 1 := by rw [← Rat.num_div_den c, hnum, hden]; norm_num
  rw [hone, scale_eq_mul, ← one, one_def, one_mul]

/-! ## Radicals -/

theorem mem_foundFactors_of_mem_factorize {p : Poly} (hp : p.isConstant = false) {f : Poly × ℕ}
    (h : f ∈ p.factorize.factors) : f ∈ p.foundFactors := by
  rw [factors_factorize_eq_mergeSort hp] at h
  exact (List.mergeSort_perm _ _).mem_iff.1 h

theorem factors_perm {p : Poly} (hp : p.isConstant = false) :
    p.factors.Perm (p.foundFactors.map Prod.fst) := by
  rw [factors, hp, if_neg Bool.false_ne_true, factors_factorize_eq_mergeSort hp]
  exact (List.mergeSort_perm _ _).map _

theorem not_isConstant_of_mem_factors {p f : Poly} (hp : p.isConstant = false)
    (hf : f ∈ p.factors) : f.isConstant = false := by
  obtain ⟨g, hg, rfl⟩ := List.mem_map.1 ((factors_perm hp).mem_iff.1 hf)
  exact (canonical_of_mem_foundFactors (ne_zero_of_not_isConstant hp) hg).1

theorem radical_eq_prod_foundFactors {p : Poly} (hp : p.isConstant = false) :
    p.radical = (p.foundFactors.map Prod.fst).prod := by
  rw [radical, hp, if_neg Bool.false_ne_true, foldl_mul_eq_prod, (factors_perm hp).prod_eq]

/-- The radical is canonical and squarefree. -/
theorem canonical_radical {p : Poly} (hp : p.isConstant = false) :
    p.radical.Canonical ∧ Squarefree p.radical := by
  have hp0 := ne_zero_of_not_isConstant hp
  rw [radical_eq_prod_foundFactors hp]
  refine ⟨canonical_prod fun g hg => ?_, squarefree_foundFactors hp0⟩
  obtain ⟨f, hf, rfl⟩ := List.mem_map.1 hg
  exact (canonical_of_mem_foundFactors hp0 hf).2

theorem radical_dvd {p : Poly} (hp : p.isConstant = false) : p.radical ∣ p := by
  rw [radical_eq_prod_foundFactors hp]
  exact (prod_fst_dvd_prod_pow fun f hf => pos_of_mem_foundFactors hf).trans
    (associated_foundFactors (ne_zero_of_not_isConstant hp)).dvd

/-- Powers divide a power of the product of their bases. -/
theorem prod_pow_dvd_prod_fst_pow (l : List (Poly × ℕ)) :
    (l.map fun f => f.1 ^ f.2).prod ∣ (l.map Prod.fst).prod ^ (l.map Prod.snd).sum := by
  induction l with
  | nil => exact one_dvd _
  | cons f l ih =>
    rw [List.map_cons, List.map_cons, List.map_cons, List.prod_cons, List.prod_cons,
      List.sum_cons, pow_add]
    refine mul_dvd_mul (pow_dvd_pow_of_dvd (dvd_mul_right _ _) _) (ih.trans ?_)
    exact pow_dvd_pow_of_dvd (dvd_mul_left _ _) _

theorem exists_dvd_radical_pow {p : Poly} (hp : p.isConstant = false) :
    ∃ n, p ∣ p.radical ^ n := by
  rw [radical_eq_prod_foundFactors hp]
  exact ⟨_, (associated_foundFactors (ne_zero_of_not_isConstant hp)).symm.dvd.trans
    (prod_pow_dvd_prod_fst_pow _)⟩

/-! ## Irreducible divisors -/

/-- The constants are zero and the units. -/
theorem isConstant_eq_false_iff {p : Poly} : p.isConstant = false ↔ p ≠ 0 ∧ ¬ IsUnit p := by
  constructor
  · intro hp
    refine ⟨ne_zero_of_not_isConstant hp, fun hunit => ?_⟩
    rw [(isUnit_iff.1 hunit).1] at hp
    cases hp
  · rintro ⟨h0, hunit⟩
    rw [← Bool.not_eq_true]
    exact fun hp => hunit (isUnit_iff.2 ⟨hp, h0⟩)

/-- A squarefree polynomial divides whatever its irreducible divisors divide. -/
theorem dvd_of_forall_irreducible_dvd {p q : Poly} (hp : Squarefree p)
    (h : ∀ r, Irreducible r → r ∣ p → r ∣ q) : p ∣ q := by
  induction p using UniqueFactorizationMonoid.induction_on_prime with
  | h₁ => exact absurd hp not_squarefree_zero
  | h₂ p hunit => exact hunit.dvd
  | h₃ p r _ hr ih =>
    -- squarefree, so the prime is coprime to the rest
    obtain ⟨hrel, -, hrest⟩ := squarefree_mul_iff.1 hp
    have hpq : p ∣ q := ih hrest fun s hs hsp => h s hs (hsp.mul_left r)
    exact hrel.mul_dvd (h r hr.irreducible (dvd_mul_right r p)) hpq

theorem irreducible_dvd_radical_iff {p r : Poly} (hp : p.isConstant = false)
    (hr : Irreducible r) : r ∣ p.radical ↔ r ∣ p := by
  obtain ⟨n, hn⟩ := exists_dvd_radical_pow hp
  exact ⟨fun h => h.trans (radical_dvd hp), fun h => hr.prime.dvd_of_dvd_pow (h.trans hn)⟩

/-- A canonical squarefree polynomial with the irreducible divisors of `p` is the radical
of `p`. -/
theorem radical_eq_of_irreducible_dvd_iff {p q : Poly} (hp : p.isConstant = false)
    (hcanonical : q.Canonical) (hsquarefree : Squarefree q)
    (h : ∀ r, Irreducible r → (r ∣ p ↔ r ∣ q)) : p.radical = q := by
  obtain ⟨hcp, hsp⟩ := canonical_radical hp
  refine hcp.eq_of_associated hcanonical (associated_of_dvd_dvd ?_ ?_)
  · refine dvd_of_forall_irreducible_dvd hsp fun r hr hdvd => ?_
    exact (h r hr).1 ((irreducible_dvd_radical_iff hp hr).1 hdvd)
  · refine dvd_of_forall_irreducible_dvd hsquarefree fun r hr hdvd => ?_
    exact (irreducible_dvd_radical_iff hp hr).2 ((h r hr).2 hdvd)

/-- Radicals are equal as soon as the irreducible divisors are the same. -/
theorem radical_eq_radical_iff {p q : Poly} (hp : p.isConstant = false)
    (hq : q.isConstant = false) :
    p.radical = q.radical ↔ ∀ r, Irreducible r → (r ∣ p ↔ r ∣ q) := by
  constructor
  · intro h r hr
    rw [← irreducible_dvd_radical_iff hp hr, h, irreducible_dvd_radical_iff hq hr]
  · intro h
    obtain ⟨hcanonical, hsquarefree⟩ := canonical_radical hq
    refine radical_eq_of_irreducible_dvd_iff hp hcanonical hsquarefree fun r hr => ?_
    rw [h r hr, irreducible_dvd_radical_iff hq hr]

/-- A radical is its own radical. -/
theorem radical_radical (p : Poly) : p.radical.radical = p.radical := by
  by_cases hp : p.isConstant = true
  · have hself : p.radical = p := by rw [radical, if_pos hp]
    rw [hself, hself]
  · have hradical : p.radical.isConstant = false := by
      rw [← Bool.not_eq_true, isConstant_radical_iff]
      exact hp
    rw [Bool.not_eq_true] at hp
    obtain ⟨hcanonical, hsquarefree⟩ := canonical_radical hp
    exact radical_eq_of_irreducible_dvd_iff hradical hcanonical hsquarefree fun _ _ => Iff.rfl

theorem radical_scale {p : Poly} (hp : p.isConstant = false) {c : ℚ} (hc : c ≠ 0) :
    (p.scale c).radical = p.radical := by
  have hassoc : Associated (p.scale c) p := by
    rw [scale_eq_mul]
    exact associated_unit_mul_left p _ (isUnit_constant hc)
  have hscale : (p.scale c).isConstant = false := by
    rw [isConstant_eq_false_iff, Ne, hassoc.eq_zero_iff, hassoc.isUnit_iff]
    exact isConstant_eq_false_iff.1 hp
  exact (radical_eq_radical_iff hscale hp).2 fun r _ => hassoc.dvd_iff_dvd_right

theorem radical_pow {p : Poly} (hp : p.isConstant = false) {k : ℕ} (hk : 1 ≤ k) :
    (p.pow k).radical = p.radical := by
  have hk0 : k ≠ 0 := by omega
  have hpow : (p.pow k).isConstant = false := by
    obtain ⟨h0, hunit⟩ := isConstant_eq_false_iff.1 hp
    rw [isConstant_eq_false_iff, pow_def, isUnit_pow_iff hk0]
    exact ⟨pow_ne_zero k h0, hunit⟩
  refine (radical_eq_radical_iff hpow hp).2 fun r hr => ?_
  rw [pow_def]
  exact hr.prime.dvd_pow_iff_dvd hk0

/-! ## The squarefree part -/

/-- The radical of a polynomial that is not constant is its canonical squarefree part.  It is
canonical and squarefree and divides the polynomial, which divides a power of it, so that both
vanish at the same points.  Rational factors and powers leave it as it is, and two polynomials
have the same radical exactly if they have the same irreducible divisors. -/
theorem squarefreePart_radical {p : Poly} (hp : p.isConstant = false) :
    (p.radical.Canonical ∧ p.radical.normalized = p.radical) ∧ Squarefree p.radical ∧
    p.radical ∣ p ∧ (∃ n, p ∣ p.radical.pow n) ∧
    (∀ (K : Type*) [Field K] [CharZero K] (v : String → K),
      p.radical.value v = 0 ↔ p.value v = 0) ∧
    p.radical.radical = p.radical ∧
    (∀ c : ℚ, c ≠ 0 → (p.scale c).radical = p.radical) ∧
    (∀ k, 1 ≤ k → (p.pow k).radical = p.radical) ∧
    ∀ q : Poly, q.isConstant = false →
      (p.radical = q.radical ↔ ∀ r : Poly, Irreducible r → (r ∣ p ↔ r ∣ q)) := by
  obtain ⟨hcanonical, hsquarefree⟩ := canonical_radical hp
  have hnormalized : p.radical.normalized = p.radical :=
    (canonical_normalized hsquarefree.ne_zero).eq_of_associated hcanonical
      (associated_normalized p.radical).symm
  exact ⟨⟨hcanonical, hnormalized⟩, hsquarefree, radical_dvd hp, exists_dvd_radical_pow hp,
    fun K _ _ v => value_radical_eq_zero_iff p, radical_radical p, fun c hc => radical_scale hp hc,
    fun k hk => radical_pow hp hk, fun q hq => radical_eq_radical_iff hp hq⟩

end Meadow.Poly
