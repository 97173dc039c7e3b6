import Mathlib
import Meadow.Proofs.Univariate.Modular

set_option autoImplicit false

/-!
# Lifted factors

`Hensel.LiftedPair` is what one lift keeps from one power of the prime to the next: the factors
multiply to the polynomial modulo the power, they have the residues that they started from,
and the first one stays monic (`Hensel.LiftedPair.step`).  Lifting all factors of a polynomial
gives factors that are monic modulo the power, have the given residues modulo the prime and
multiply to the polynomial up to its leading coefficient (`Hensel.Liftable.liftedFactors`): what
the first factor leaves is a polynomial whose other factors can be lifted in turn
(`Hensel.Liftable.rest`).  `Hensel.factorization_lifted` says all that of one lift and of all.
-/

namespace Meadow

namespace Hensel

open Polynomial
open ModPoly (Denotes)
open IntPoly (modulo toPolynomial)

/-! ## One step -/

/-- The factors of `f` modulo `m`, with their residues modulo `p`. -/
structure LiftedPair (p m : ℕ) (f : ℤ[X]) (g h : (ZMod p)[X]) (G H : ℤ[X]) : Prop where
  dvd : C (m : ℤ) ∣ f - G * H
  left : modulo p G = g
  right : modulo p H = h
  monic : G.Monic
  small : ∀ i, 0 ≤ G.coeff i ∧ G.coeff i < m

/-- The steps keep the monic factor free of trailing zeros. -/
theorem trimmed_liftSteps {p m steps : ℕ} {f G H : IntPoly} {g h t : ModPoly}
    (hG : IntPoly.Trimmed G) : IntPoly.Trimmed (liftSteps p f g h t steps m G H).1 := by
  induction steps generalizing m G H with
  | zero => exact hG
  | succ steps ih => exact ih (hG.add (IntPoly.trimmed_trim _))

/-- Steps taken one after the other. -/
theorem liftSteps_add (p : ℕ) (f : IntPoly) (g h t : ModPoly) (i j m : ℕ) (G H : IntPoly) :
    liftSteps p f g h t (i + j) m G H
      = liftSteps p f g h t j (m * p ^ i) (liftSteps p f g h t i m G H).1
        (liftSteps p f g h t i m G H).2 := by
  induction i generalizing m G H with
  | zero => rw [Nat.zero_add, pow_zero, mul_one, liftSteps]
  | succ i ih =>
    rw [Nat.succ_add, liftSteps, liftSteps]
    dsimp only
    rw [ih, pow_succ', ← mul_assoc]

/-- The factors at the start of the round that goes on from `p ^ j`. -/
theorem lift_eq_liftSteps {p k j : ℕ} (hj : 0 < j) (hjk : j ≤ k) (f : IntPoly) (g h : ModPoly) :
    lift p k f g h = liftSteps p f g h (ModPoly.bezout p g h).2 (k - j) (p ^ j)
      (lift p j f g h).1 (lift p j f g h).2 := by
  rw [lift, lift, show k - 1 = j - 1 + (k - j) by omega, liftSteps_add, ← pow_succ',
    Nat.sub_add_cancel hj]

section Step

variable {p : ℕ} [Fact p.Prime]

/-- Factors that the error tells to correct are factors modulo the next power. -/
theorem LiftedPair.step {m : ℕ} (hm : p ∣ m) {f G H a b e : ℤ[X]} {g h : (ZMod p)[X]}
    (hlift : LiftedPair p m f g h G H) (he : C (m : ℤ) * e = f - G * H)
    (hsolve : modulo p a * h + modulo p b * g = modulo p e) (ha : a.degree < g.degree)
    (hsmall : ∀ i, 0 ≤ a.coeff i ∧ a.coeff i < p) :
    LiftedPair p (m * p) f g h (G + C (m : ℤ) * a) (H + C (m : ℤ) * b) := by
  have hm0 : (m : ZMod p) = 0 := (ZMod.natCast_eq_zero_iff m p).2 hm
  have hzero (c : ℤ[X]) : modulo p (C (m : ℤ) * c) = 0 := by
    rw [map_mul, IntPoly.modulo_C, Int.cast_natCast, hm0, C_0, zero_mul]
  refine ⟨?_, ?_, ?_, ?_, fun i => ?_⟩
  · have hmodulo : C (p : ℤ) ∣ e - (a * H + b * G) := by
      rw [← IntPoly.modulo_eq_iff, map_add, map_mul, map_mul, hlift.left, hlift.right, hsolve]
    obtain ⟨r, hr⟩ := hmodulo
    obtain ⟨n, rfl⟩ := hm
    refine ⟨r - C (n : ℤ) * (a * b), ?_⟩
    simp only [Nat.cast_mul, C_mul] at he ⊢
    linear_combination C (p : ℤ) * C (n : ℤ) * hr - he
  · rw [map_add, hzero, add_zero, hlift.left]
  · rw [map_add, hzero, add_zero, hlift.right]
  · refine hlift.monic.add_of_left ?_
    have hdegree : g.degree = G.degree := by
      rw [← hlift.left]
      exact hlift.monic.degree_map _
    rw [← hdegree, C_mul']
    exact (degree_smul_le _ _).trans_lt ha
  · obtain ⟨hG, hGlt⟩ := hlift.small i
    obtain ⟨ha, halt⟩ := hsmall i
    rw [coeff_add, coeff_C_mul, Nat.cast_mul]
    refine ⟨add_nonneg hG (mul_nonneg (Int.natCast_nonneg m) ha), ?_⟩
    calc G.coeff i + m * a.coeff i < m + m * a.coeff i := add_lt_add_left hGlt _
      _ = m * (a.coeff i + 1) := by ring
      _ ≤ m * p := mul_le_mul_of_nonneg_left halt (Int.natCast_nonneg m)

/-- The equation of a correction is solved by what has a lower degree than the monic
factor. -/
theorem exists_correction [Fact (p < primeLimit)] {g h t e : ModPoly} {g' h' s' t' e' : (ZMod p)[X]}
    (hg : Denotes p g g') (hh : Denotes p h h') (ht : Denotes p t t') (he : Denotes p e e')
    (hg0 : g' ≠ 0) (hone : s' * g' + t' * h' = 1) :
    ∃ a b, Denotes p (correction p g h t e).1 a ∧ Denotes p (correction p g h t e).2 b ∧
      a * h' + b * g' = e' ∧ a.degree < g'.degree := by
  have ha := hg.mulMod ht (he.rem hg)
  have hdvd : g' ∣ e' - t' * (e' % g') % g' * h' := by
    have hrem := EuclideanDomain.div_add_mod e' g'
    have hprod := EuclideanDomain.div_add_mod (t' * (e' % g')) g'
    refine ⟨e' / g' + s' * (e' % g') + t' * (e' % g') / g' * h', ?_⟩
    linear_combination -hrem - h' * hprod - e' % g' * hone
  refine ⟨_, _, ha, (he.sub (ha.mul hh)).div hg, ?_, EuclideanDomain.mod_lt _ hg0⟩
  linear_combination EuclideanDomain.mul_div_cancel' hg0 hdvd

/-- The correction by both factors of a combination of one. -/
def combinedCorrection (p : ℕ) (g h s t e : ModPoly) : ModPoly × ModPoly :=
  let qa := ModPoly.divRem p (ModPoly.mul p t e) g
  (qa.2, ModPoly.add p (ModPoly.mul p s e) (ModPoly.mul p qa.1 h))

/-- One factor of the combination is enough: the other part of the correction is a quotient. -/
theorem correction_eq_combinedCorrection [Fact (p < primeLimit)] {g h s t e : ModPoly}
    {g' h' s' t' e' : (ZMod p)[X]} (hg : Denotes p g g') (hh : Denotes p h h') (hs : Denotes p s s')
    (ht : Denotes p t t') (he : Denotes p e e') (hg0 : g' ≠ 0) (hone : s' * g' + t' * h' = 1) :
    correction p g h t e = combinedCorrection p g h s t e := by
  have hmod : t' * (e' % g') % g' = t' * e' % g' := by
    rw [mul_mod, (mod_eq_self_iff hg0).2 (EuclideanDomain.mod_lt e' hg0), ← mul_mod]
  have ha := (hg.mulMod ht (he.rem hg)).of_eq hmod
  refine Prod.ext (ha.unique ((ht.mul he).rem hg)) ?_
  refine ((he.sub (ha.mul hh)).div hg).unique
    (((hs.mul he).add (((ht.mul he).div hg).mul hh)).of_eq ?_)
  refine EuclideanDomain.eq_div_of_mul_eq_left hg0 ?_
  linear_combination e' * hone + h' * EuclideanDomain.div_add_mod (t' * e') g'

/-- The steps lift the factors from one power of the prime to a higher one. -/
theorem liftedPair_liftSteps [Fact (p < primeLimit)] {f G H : IntPoly} {g h t : ModPoly}
    {g' h' s' t' : (ZMod p)[X]} (hg : Denotes p g g') (hh : Denotes p h h') (ht : Denotes p t t')
    (hg0 : g' ≠ 0) (hone : s' * g' + t' * h' = 1) {m : ℕ} (hm : p ∣ m) (steps : ℕ)
    (hlift : LiftedPair p m (toPolynomial f) g' h' (toPolynomial G) (toPolynomial H)) :
    LiftedPair p (m * p ^ steps) (toPolynomial f) g' h'
      (toPolynomial (liftSteps p f g h t steps m G H).1)
      (toPolynomial (liftSteps p f g h t steps m G H).2) := by
  induction steps generalizing m G H with
  | zero => rwa [pow_zero, mul_one]
  | succ steps ih =>
    have herror : C (m : ℤ) * toPolynomial ((f.sub (G.mul H)).map (· / (m : ℤ)))
        = toPolynomial f - toPolynomial G * toPolynomial H := by
      rw [IntPoly.C_mul_toPolynomial_map_div, IntPoly.toPolynomial_sub, IntPoly.toPolynomial_mul]
      rw [← IntPoly.C_dvd_toPolynomial_iff, IntPoly.toPolynomial_sub, IntPoly.toPolynomial_mul]
      exact hlift.dvd
    obtain ⟨a, b, ha, hb, hsolve, hdegree⟩ :=
      exists_correction hg hh ht (ModPoly.denotes_ofInts _) hg0 hone
    rw [liftSteps, pow_succ', ← mul_assoc]
    dsimp only
    refine ih (hm.mul_right p) ?_
    rw [IntPoly.toPolynomial_add, IntPoly.toPolynomial_add, IntPoly.toPolynomial_scale,
      IntPoly.toPolynomial_scale]
    refine hlift.step hm herror ?_ ?_ ha.coeff_toInts
    · rw [ha.modulo_toInts, hb.modulo_toInts, hsolve]
    · rw [degree_eq_natDegree hg0] at hdegree ⊢
      exact ha.degree_toInts_lt hdegree

/-! ## What a lifted pair tells about the lists -/

theorem LiftedPair.modulo_eq {m : ℕ} {f G H : ℤ[X]} {g h : (ZMod p)[X]}
    (hlift : LiftedPair p m f g h G H) : modulo m f = modulo m G * modulo m H := by
  rw [← map_mul]
  exact IntPoly.modulo_eq_iff.2 hlift.dvd

/-- The list of a factor that is split off consists of residues. -/
theorem LiftedPair.reduced {m : ℕ} {f H : ℤ[X]} {G : IntPoly} {g h : (ZMod p)[X]}
    (hlift : LiftedPair p m f g h (toPolynomial G) H) (hG : IntPoly.Trimmed G) :
    IntPoly.Reduced m G := by
  refine ⟨hG, fun c hc => ?_⟩
  obtain ⟨i, rfl⟩ := IntPoly.exists_coeff_eq_of_mem hc
  exact hlift.small i

theorem LiftedPair.lead_eq_one {m : ℕ} {f H : ℤ[X]} {G : IntPoly} {g h : (ZMod p)[X]}
    (hlift : LiftedPair p m f g h (toPolynomial G) H) (hG : IntPoly.Trimmed G) : G.lead = 1 := by
  rw [← hG.leadingCoeff_eq]
  exact hlift.monic

/-- The monic factor keeps its length. -/
theorem LiftedPair.length_eq {m : ℕ} {f H : ℤ[X]} {G : IntPoly} {a : ModPoly} {g h : (ZMod p)[X]}
    (hlift : LiftedPair p m f g h (toPolynomial G) H) (hG : IntPoly.Trimmed G)
    (ha : Denotes p a g) : G.length = a.length := by
  have hG0 : G ≠ [] := by
    rintro rfl
    exact hlift.monic.ne_zero IntPoly.toPolynomial_nil
  have ha0 : a ≠ [] := by
    rw [Ne, ha.eq_nil_iff, ← hlift.left]
    exact (hlift.monic.map _).ne_zero
  have hdegree := hlift.monic.natDegree_map (Int.castRingHom (ZMod p))
  rw [← coe_mapRingHom, ← modulo, hlift.left, ha.natDegree_eq, hG.natDegree_eq hG0] at hdegree
  have hGpos := List.length_pos_of_ne_nil hG0
  have hapos := List.length_pos_of_ne_nil ha0
  omega

end Step

/-! ## Two factors -/

section Lift

variable {p k : ℕ} [Fact p.Prime]

/-- A factorization modulo the prime is lifted to one modulo its power. -/
theorem liftedPair_lift [Fact (p < primeLimit)] (hk : 0 < k) {f : IntPoly} {g h : ModPoly}
    {g' h' : (ZMod p)[X]} (hg : Denotes p g g') (hh : Denotes p h h') (hmonic : g'.Monic)
    (hcoprime : IsCoprime g' h') (hf : modulo p (toPolynomial f) = g' * h') :
    LiftedPair p (p ^ k) (toPolynomial f) g' h' (toPolynomial (lift p k f g h).1)
      (toPolynomial (lift p k f g h).2) := by
  obtain ⟨s', t', -, ht, hone⟩ := hg.bezout hh hcoprime
  have hstart : LiftedPair p p (toPolynomial f) g' h' (toPolynomial g.toInts)
      (toPolynomial h.toInts) := by
    refine ⟨?_, hg.modulo_toInts, hh.modulo_toInts, hg.monic_toInts hmonic, hg.coeff_toInts⟩
    rw [← IntPoly.modulo_eq_iff, map_mul, hg.modulo_toInts, hh.modulo_toInts, hf]
  have hlift := liftedPair_liftSteps hg hh ht hmonic.ne_zero hone dvd_rfl (k - 1) hstart
  rwa [← pow_succ', Nat.sub_add_cancel hk] at hlift

/-! ## The inverse of the leading coefficient -/

theorem inverse_mul {a : ℤ} (hk : 0 < k) (ha : (a : ZMod p) ≠ 0) :
    (inverse p k a : ZMod (p ^ k)) * a = 1 := by
  have hunit : IsUnit (a : ZMod (p ^ k)) := by
    have hcoprime := (ZMod.coe_int_isUnit_iff_isCoprime a p).1 (isUnit_iff_ne_zero.2 ha)
    rw [ZMod.coe_int_isUnit_iff_isCoprime, Nat.cast_pow]
    exact hcoprime.pow_left
  have hm0 : ((p ^ k : ℕ) : ℤ) ≠ 0 := Int.natCast_ne_zero.2 (pow_ne_zero k (NeZero.ne p))
  have hpow (n : ℕ) : ((powerBy (fun x y => x * y % p ^ k) (1 % p ^ k)
      (a % ((p ^ k : ℕ) : ℤ)).toNat n : ℕ) : ZMod (p ^ k)) = a ^ n := by
    refine powerBy_of_add (R := fun n x => ((x : ℕ) : ZMod (p ^ k)) = a ^ n) ?_ ?_ ?_ n
    · rw [ZMod.natCast_mod, Nat.cast_one, pow_zero]
    · rw [← Int.cast_natCast, Int.toNat_of_nonneg (Int.emod_nonneg a hm0), ZMod.intCast_mod,
        pow_one]
    · intro i j x y hx hy
      rw [ZMod.natCast_mod, Nat.cast_mul, hx, hy, pow_add]
  have htotient : p ^ k - p ^ (k - 1) = Nat.totient (p ^ k) := by
    rw [Nat.totient_prime_pow Fact.out hk, Nat.mul_sub, mul_one, ← pow_succ, Nat.sub_add_cancel hk]
  have hpos : 0 < Nat.totient (p ^ k) := Nat.totient_pos.2 (pow_pos (NeZero.pos p) k)
  obtain ⟨u, hu⟩ := hunit
  have hinverse : (inverse p k a : ZMod (p ^ k)) = a ^ (Nat.totient (p ^ k) - 1) := by
    rw [← htotient]
    exact hpow _
  rw [hinverse, ← pow_succ, Nat.sub_add_cancel hpos, ← hu, ← Units.val_pow_eq_pow_val,
    ZMod.pow_totient, Units.val_one]

/-! ## All factors -/

theorem isCoprime_list_prod {R : Type*} [CommRing R] {x : R} {l : List R}
    (h : ∀ y ∈ l, IsCoprime x y) : IsCoprime x l.prod := by
  induction l with
  | nil => exact isCoprime_one_right
  | cons y l ih =>
    rw [List.prod_cons]
    exact (h y List.mem_cons_self).mul_right (ih fun z hz => h z (List.mem_cons_of_mem y hz))

/-- The lifted factors consist of residues, are monic modulo the power, have the given residues
modulo the prime, and multiply to the polynomial up to its leading coefficient. -/
structure LiftedFactors (p k : ℕ) (f : IntPoly) (gs : List (ZMod p)[X])
    (ls : List IntPoly) : Prop where
  reduced : ∀ l ∈ ls, IntPoly.Reduced (p ^ k) l
  monic : ∀ l ∈ ls, (modulo (p ^ k) (toPolynomial l)).Monic
  residues : ls.map (fun l => modulo p (toPolynomial l)) = gs
  prod : modulo (p ^ k) (toPolynomial f)
    = modulo (p ^ k) (C f.lead * (ls.map toPolynomial).prod)

omit [Fact p.Prime] in
/-- One lifted factor for each factor, in order. -/
theorem LiftedFactors.forall₂_residues {f : IntPoly} {gs : List ModPoly} {ls : List IntPoly}
    (h : LiftedFactors p k f (gs.map (ModPoly.toPolynomial p)) ls) :
    List.Forall₂ (fun l g => modulo p (toPolynomial l) = ModPoly.toPolynomial p g) ls gs := by
  rw [← List.forall₂_map_right_iff (f := ModPoly.toPolynomial p),
    ← List.forall₂_map_left_iff (f := fun l => modulo p (toPolynomial l)), h.residues]
  exact List.forall₂_refl _

/-- A single factor is lifted by dividing by the leading coefficient. -/
theorem liftedFactors_singleton (hk : 0 < k) {f : IntPoly} {g : (ZMod p)[X]}
    (hf : IntPoly.Trimmed f) (hlead : (f.lead : ZMod p) ≠ 0)
    (hprod : modulo p (toPolynomial f) = C (f.lead : ZMod p) * g) :
    LiftedFactors p k f [g] [(f.scale (inverse p k f.lead)).residues (p ^ k)] := by
  set l := (f.scale (inverse p k f.lead)).residues (p ^ k)
  have hl : modulo (p ^ k) (toPolynomial l)
      = C (inverse p k f.lead : ZMod (p ^ k)) * modulo (p ^ k) (toPolynomial f) := by
    rw [IntPoly.modulo_residues, IntPoly.toPolynomial_scale, map_mul, IntPoly.modulo_C,
      Int.cast_natCast]
  have hinverse := inverse_mul hk hlead
  have hproduct : modulo (p ^ k) (toPolynomial f)
      = C (f.lead : ZMod (p ^ k)) * modulo (p ^ k) (toPolynomial l) := by
    rw [hl, ← mul_assoc, ← C_mul, mul_comm (f.lead : ZMod (p ^ k)), hinverse, C_1, one_mul]
  refine ⟨List.forall_mem_singleton.2 (IntPoly.reduced_residues _ _),
    List.forall_mem_singleton.2 ?_, ?_, ?_⟩
  · rw [hl]
    refine monic_C_mul_of_mul_leadingCoeff_eq_one ?_
    rw [hf.leadingCoeff_modulo (IntPoly.intCast_pow_ne_zero hk hlead), hinverse]
  · rw [List.map_singleton, List.singleton_inj]
    have hmod : modulo p (toPolynomial f) = modulo p (C f.lead * toPolynomial l) :=
      IntPoly.modulo_eq_of_dvd (dvd_pow_self p hk.ne') (by
        rw [hproduct, map_mul, IntPoly.modulo_C])
    rw [hprod, map_mul, IntPoly.modulo_C] at hmod
    exact (mul_left_cancel₀ (C_ne_zero.2 hlead) hmod).symm
  · rwa [List.map_singleton, List.prod_singleton, map_mul, IntPoly.modulo_C]

/-- What a monic factor leaves of a polynomial has its leading coefficient. -/
theorem lead_residues (hk : 0 < k) {f : IntPoly} {G H : IntPoly} (hf : IntPoly.Trimmed f)
    (hlead : (f.lead : ZMod p) ≠ 0) (hG : (modulo (p ^ k) (toPolynomial G)).Monic)
    (hprod : modulo (p ^ k) (toPolynomial f)
      = modulo (p ^ k) (toPolynomial G) * modulo (p ^ k) (toPolynomial H)) :
    ((H.residues (p ^ k)).lead : ZMod (p ^ k)) = f.lead := by
  rw [← IntPoly.leadingCoeff_modulo_residues, ← leadingCoeff_monic_mul hG, ← hprod,
    hf.leadingCoeff_modulo (IntPoly.intCast_pow_ne_zero hk hlead)]

theorem liftAll_ne_nil (p k : ℕ) (f : IntPoly) (gs : List ModPoly) : liftAll p k f gs ≠ [] := by
  unfold liftAll
  split
  · exact List.cons_ne_nil _ _
  · exact List.cons_ne_nil _ _

/-- A monic factor in front of the lifted factors of what it leaves. -/
theorem LiftedFactors.cons {f G H : IntPoly} {gs : List (ZMod p)[X]} {ls : List IntPoly}
    (hreduced : IntPoly.Reduced (p ^ k) G) (hG : (modulo (p ^ k) (toPolynomial G)).Monic)
    (hGH : modulo (p ^ k) (toPolynomial f)
      = modulo (p ^ k) (toPolynomial G) * modulo (p ^ k) (toPolynomial H))
    (hlead : ((H.residues (p ^ k)).lead : ZMod (p ^ k)) = f.lead)
    (h : LiftedFactors p k (H.residues (p ^ k)) gs ls) :
    LiftedFactors p k f (modulo p (toPolynomial G) :: gs) (G :: ls) := by
  refine ⟨List.forall_mem_cons.2 ⟨hreduced, h.reduced⟩, List.forall_mem_cons.2 ⟨hG, h.monic⟩,
    ?_, ?_⟩
  · rw [List.map_cons, h.residues]
  · have hH := h.prod
    rw [IntPoly.modulo_residues, map_mul, IntPoly.modulo_C, hlead] at hH
    rw [List.map_cons, List.prod_cons, map_mul, map_mul, IntPoly.modulo_C, hGH, hH, mul_left_comm]

/-- The factors of `f` modulo the prime that are lifted: they are monic and pairwise coprime, and
multiply to `f` up to its leading coefficient, which is a unit. -/
structure Liftable (p : ℕ) (f : IntPoly) (gs : List ModPoly) : Prop where
  denotes : ∀ g ∈ gs, Denotes p g (ModPoly.toPolynomial p g)
  monic : ∀ g ∈ gs, (ModPoly.toPolynomial p g).Monic
  coprime : (gs.map (ModPoly.toPolynomial p)).Pairwise IsCoprime
  trimmed : IntPoly.Trimmed f
  lead : (f.lead : ZMod p) ≠ 0
  prod : modulo p (toPolynomial f)
    = C (f.lead : ZMod p) * (gs.map (ModPoly.toPolynomial p)).prod

namespace Liftable

variable {f : IntPoly} {g : ModPoly} {gs : List ModPoly}

/-- A polynomial can be lifted to the power modulo which it is reduced. -/
theorem of_residues (hk : 0 < k) {c : ℤ}
    (hdenotes : ∀ g ∈ gs, Denotes p g (ModPoly.toPolynomial p g))
    (hmonic : ∀ g ∈ gs, (ModPoly.toPolynomial p g).Monic)
    (hcoprime : (gs.map (ModPoly.toPolynomial p)).Pairwise IsCoprime) (hc : (c : ZMod p) ≠ 0)
    (hlead : ((f.residues (p ^ k)).lead : ZMod (p ^ k)) = c)
    (hprod : modulo p (toPolynomial f) = C (c : ZMod p) * (gs.map (ModPoly.toPolynomial p)).prod) :
    Liftable p (f.residues (p ^ k)) gs := by
  have hleadp : ((f.residues (p ^ k)).lead : ZMod p) = c := IntPoly.intCast_eq_of_pow hk hlead
  refine ⟨hdenotes, hmonic, hcoprime, IntPoly.trimmed_residues _ _, by rwa [hleadp], ?_⟩
  rw [hleadp, ← hprod]
  exact IntPoly.modulo_eq_of_dvd (dvd_pow_self p hk.ne') (IntPoly.modulo_residues _ _)

theorem lead_residues_self (hk : 0 < k) (h : Liftable p f gs) :
    ((f.residues (p ^ k)).lead : ZMod (p ^ k)) = f.lead := by
  rw [← IntPoly.leadingCoeff_modulo_residues,
    h.trimmed.leadingCoeff_modulo (IntPoly.intCast_pow_ne_zero hk h.lead)]

theorem residues (hk : 0 < k) (h : Liftable p f gs) : Liftable p (f.residues (p ^ k)) gs :=
  of_residues hk h.denotes h.monic h.coprime h.lead (h.lead_residues_self hk) h.prod

variable [Fact (p < primeLimit)]

/-- The first factor is lifted against the product of those behind it. -/
theorem front (hk : 0 < k) (h : Liftable p f (g :: gs)) :
    LiftedPair p (p ^ k) (toPolynomial f) (ModPoly.toPolynomial p g)
      (C (f.lead : ZMod p) * (gs.map (ModPoly.toPolynomial p)).prod)
      (toPolynomial (lift p k f g (ModPoly.div p (ModPoly.ofInts p f) g)).1)
      (toPolynomial (lift p k f g (ModPoly.div p (ModPoly.ofInts p f) g)).2) := by
  obtain ⟨hdenotes, hmonic, hcoprime, -, hlead, hprod⟩ := h
  have hg := hdenotes g List.mem_cons_self
  have hgmonic := hmonic g List.mem_cons_self
  rw [List.map_cons, List.prod_cons, mul_left_comm] at hprod
  have hh : Denotes p (ModPoly.div p (ModPoly.ofInts p f) g)
      (C (f.lead : ZMod p) * (gs.map (ModPoly.toPolynomial p)).prod) := by
    refine ((ModPoly.denotes_ofInts f).div hg).of_eq ?_
    rw [hprod, mul_div_cancel_left₀ _ hgmonic.ne_zero]
  refine liftedPair_lift hk hg hh hgmonic ?_ hprod
  rw [isCoprime_mul_unit_left_right (isUnit_C.2 (isUnit_iff_ne_zero.2 hlead))]
  exact isCoprime_list_prod (List.pairwise_cons.1 hcoprime).1

theorem reduced_front (hk : 0 < k) (h : Liftable p f (g :: gs)) :
    IntPoly.Reduced (p ^ k) (lift p k f g (ModPoly.div p (ModPoly.ofInts p f) g)).1 :=
  (h.front hk).reduced (trimmed_liftSteps (h.denotes g List.mem_cons_self).trimmed_toInts)

/-- What the first factor leaves keeps the leading coefficient. -/
theorem lead_rest (hk : 0 < k) (h : Liftable p f (g :: gs)) :
    (((lift p k f g (ModPoly.div p (ModPoly.ofInts p f) g)).2.residues (p ^ k)).lead :
      ZMod (p ^ k)) = f.lead :=
  lead_residues hk h.trimmed h.lead ((h.front hk).monic.map _) ((h.front hk).modulo_eq)

/-- The other factors are lifted with what the first one leaves. -/
theorem rest (hk : 0 < k) (h : Liftable p f (g :: gs)) :
    Liftable p ((lift p k f g (ModPoly.div p (ModPoly.ofInts p f) g)).2.residues (p ^ k)) gs :=
  of_residues hk (List.forall_mem_cons.1 h.denotes).2 (List.forall_mem_cons.1 h.monic).2
    (List.pairwise_cons.1 h.coprime).2 h.lead (h.lead_rest hk) (h.front hk).right

/-- All factors are lifted. -/
theorem liftedFactors (hk : 0 < k) (hgs : gs ≠ []) (h : Liftable p f gs) :
    LiftedFactors p k f (gs.map (ModPoly.toPolynomial p)) (liftAll p k f gs) := by
  induction gs generalizing f with
  | nil => exact absurd rfl hgs
  | cons g gs ih =>
    cases gs with
    | nil =>
      have hprod := h.prod
      rw [List.map_singleton, List.prod_singleton] at hprod
      exact liftedFactors_singleton hk h.trimmed h.lead hprod
    | cons g' gs =>
      have hfront := h.front hk
      have hbehind := ih (List.cons_ne_nil g' gs) (h.rest hk)
      rw [liftAll, List.map_cons, ← hfront.left]
      exact LiftedFactors.cons (h.reduced_front hk) (hfront.monic.map _) hfront.modulo_eq
        (h.lead_rest hk) hbehind

/-- It does not matter that a polynomial is reduced modulo the power first. -/
theorem liftedFactors_residues (hk : 0 < k) (hgs : gs ≠ []) (h : Liftable p f gs) :
    LiftedFactors p k f (gs.map (ModPoly.toPolynomial p))
      (liftAll p k (f.residues (p ^ k)) gs) := by
  obtain ⟨hreduced, hmonic, hresidues, hprod⟩ := (h.residues hk).liftedFactors hk hgs
  refine ⟨hreduced, hmonic, hresidues, ?_⟩
  rwa [IntPoly.modulo_residues, map_mul, IntPoly.modulo_C, h.lead_residues_self hk,
    ← IntPoly.modulo_C, ← map_mul] at hprod

end Liftable

end Lift

/-! ## The lifted factors of a polynomial -/

/-- Lifting a factorization modulo a prime to its power `p ^ k`.  All factors of a polynomial are
lifted to monic lists of residues modulo the power, one for each, that agree with them modulo
the prime and multiply to the polynomial up to its leading coefficient.  Two factors, the first
one monic, are lifted to two with the same residues that multiply to the polynomial; the
corrections are those by both factors of a combination of one, and in every round, what the
product misses is a multiple of the power reached. -/
theorem factorization_lifted {p k : ℕ} (hp : p.Prime) (hlt : p < primeLimit) (hk : 1 ≤ k) :
    (∀ (f : IntPoly) (gs : List ModPoly), IntPoly.Trimmed f → ¬ (p : ℤ) ∣ f.lead → gs ≠ [] →
      (∀ g ∈ gs, Denotes p g (ModPoly.toPolynomial p g) ∧ (ModPoly.toPolynomial p g).Monic) →
      (gs.map (ModPoly.toPolynomial p)).Pairwise IsCoprime →
      modulo p (toPolynomial f) = C (f.lead : ZMod p) * (gs.map (ModPoly.toPolynomial p)).prod →
      (liftAll p k (f.residues (p ^ k)) gs).length = gs.length ∧
      (∀ l ∈ liftAll p k (f.residues (p ^ k)) gs, l.lead = 1 ∧ ∀ c ∈ l, 0 ≤ c ∧ c < (p : ℤ) ^ k) ∧
      List.Forall₂ (fun l g => modulo p (toPolynomial l) = ModPoly.toPolynomial p g)
        (liftAll p k (f.residues (p ^ k)) gs) gs ∧
      modulo (p ^ k) (C f.lead * ((liftAll p k (f.residues (p ^ k)) gs).map toPolynomial).prod)
        = modulo (p ^ k) (toPolynomial f)) ∧
    (∀ (f : IntPoly) (g h : ModPoly) (g' h' : (ZMod p)[X]), Denotes p g g' → Denotes p h h' →
      g'.Monic → IsCoprime g' h' → modulo p (toPolynomial f) = g' * h' →
      modulo (p ^ k) (toPolynomial f)
        = modulo (p ^ k) (toPolynomial (lift p k f g h).1 * toPolynomial (lift p k f g h).2) ∧
      (lift p k f g h).1.lead = 1 ∧ (lift p k f g h).1.length = g.length ∧
      modulo p (toPolynomial (lift p k f g h).1) = g' ∧
      modulo p (toPolynomial (lift p k f g h).2) = h' ∧
      (∀ e e', Denotes p e e' → correction p g h (ModPoly.bezout p g h).2 e
        = combinedCorrection p g h (ModPoly.bezout p g h).1 (ModPoly.bezout p g h).2 e) ∧
      ∀ j, 1 ≤ j → j < k →
        lift p k f g h = liftSteps p f g h (ModPoly.bezout p g h).2 (k - j) (p ^ j)
          (lift p j f g h).1 (lift p j f g h).2 ∧
        ∀ c ∈ f.sub ((lift p j f g h).1.mul (lift p j f g h).2), (p : ℤ) ^ j ∣ c) := by
  have : Fact p.Prime := ⟨hp⟩
  have : Fact (p < primeLimit) := ⟨hlt⟩
  have hpow : 1 < p ^ k := Nat.one_lt_pow (by omega) hp.one_lt
  refine ⟨?_, ?_⟩
  · intro f gs hf hlead hgs hmonic hcoprime hprod
    rw [← ZMod.intCast_zmod_eq_zero_iff_dvd] at hlead
    have hliftable : Liftable p f gs :=
      ⟨fun g hg => (hmonic g hg).1, fun g hg => (hmonic g hg).2, hcoprime, hf, hlead, hprod⟩
    have hlifted := hliftable.liftedFactors_residues hk hgs
    have hresidues := hlifted.forall₂_residues
    refine ⟨hresidues.length_eq, fun l hl => ?_, hresidues, hlifted.prod.symm⟩
    have hreduced := hlifted.reduced l hl
    refine ⟨hreduced.lead_eq_one hpow (hlifted.monic l hl), fun c hc => ?_⟩
    exact_mod_cast hreduced.range c hc
  · intro f g h g' h' hg hh hmonic hcoprime hprod
    have hlift (j : ℕ) (hj : 1 ≤ j) := liftedPair_lift hj hg hh hmonic hcoprime hprod
    have hpair := hlift k hk
    have htrimmed : IntPoly.Trimmed (lift p k f g h).1 := trimmed_liftSteps hg.trimmed_toInts
    obtain ⟨s', t', hs, ht, hone⟩ := hg.bezout hh hcoprime
    refine ⟨IntPoly.modulo_eq_iff.2 hpair.dvd, hpair.lead_eq_one htrimmed,
      hpair.length_eq htrimmed hg, hpair.left, hpair.right, fun e e' he =>
        correction_eq_combinedCorrection hg hh hs ht he hmonic.ne_zero hone, fun j hj hjk => ?_⟩
    have hdvd := (hlift j hj).dvd
    rw [← IntPoly.toPolynomial_mul, ← IntPoly.toPolynomial_sub, Nat.cast_pow] at hdvd
    exact ⟨lift_eq_liftSteps hj hjk.le f g h, IntPoly.C_dvd_toPolynomial_iff.1 hdvd⟩

/-- Modulo 11, the polynomial `6 * x ^ 2 - x - 2` is `6 * (x + 6) * (x + 3)`; modulo 121, it is
`6 * (x + 61) * (x + 80)`. -/
theorem factorization_lifted_quadratic :
    liftAll 11 2 (IntPoly.residues (11 ^ 2) [-2, -1, 6]) [[6, 1], [3, 1]] = [[61, 1], [80, 1]] ∧
      modulo (11 ^ 2) (C 6 * (toPolynomial [61, 1] * toPolynomial [80, 1]))
        = modulo (11 ^ 2) (toPolynomial [-2, -1, 6]) ∧
      lift 11 2 [-2, -1, 6] [6, 1] [7, 6] = ([61, 1], [117, 6]) ∧
      modulo (11 ^ 2) (toPolynomial [-2, -1, 6])
        = modulo (11 ^ 2) (toPolynomial [61, 1] * toPolynomial [117, 6]) := by
  have hprime : Nat.Prime 11 := by norm_num
  have : Fact (Nat.Prime 11) := ⟨hprime⟩
  have heleven : (11 : (ZMod 11)[X]) = 0 := CharP.cast_eq_zero (ZMod 11)[X] 11
  have hdenotes {c d : ℕ} (hc : c < 11) (hd : d < 11) (hd0 : d ≠ 0) :
      Denotes 11 [c, d] ((c : (ZMod 11)[X]) + X * (d : (ZMod 11)[X])) := by
    refine ⟨List.forall_mem_cons.2 ⟨hc, List.forall_mem_singleton.2 hd⟩, by simpa using hd0, ?_⟩
    rw [ModPoly.toPolynomial_list_cons, ModPoly.toPolynomial_list_cons, ModPoly.toPolynomial_nil,
      mul_zero, add_zero, map_natCast, map_natCast]
  have hsix := hdenotes (c := 6) (d := 1) (by decide) (by decide) (by decide)
  have hthree := hdenotes (c := 3) (d := 1) (by decide) (by decide) (by decide)
  have hcofactor := hdenotes (c := 7) (d := 6) (by decide) (by decide) (by decide)
  have hmonic (c : ℕ) : ((c : (ZMod 11)[X]) + X * ((1 : ℕ) : (ZMod 11)[X])).Monic := by
    rw [Nat.cast_one, mul_one, add_comm, ← map_natCast C]
    exact monic_X_add_C _
  have hresidue : modulo 11 (toPolynomial [-2, -1, 6]) = -2 + X * (-1 + X * 6) := by
    simp only [IntPoly.toPolynomial_list_cons, IntPoly.toPolynomial_nil, map_add, map_mul,
      IntPoly.modulo_C, IntPoly.modulo_X, map_intCast, map_zero]
    push_cast
    ring
  have hlifted : liftAll 11 2 (IntPoly.residues (11 ^ 2) [-2, -1, 6]) [[6, 1], [3, 1]]
      = [[61, 1], [80, 1]] := by decide +kernel
  have hpair : lift 11 2 [-2, -1, 6] [6, 1] [7, 6] = ([61, 1], [117, 6]) := by decide +kernel
  obtain ⟨hall, htwo⟩ := factorization_lifted hprime (by decide) one_le_two
  have hprod := (hall [-2, -1, 6] [[6, 1], [3, 1]] (by simp [IntPoly.Trimmed]) (by decide)
    (List.cons_ne_nil _ _) ?_ ?_ ?_).2.2.2
  · have hsplit := (htwo [-2, -1, 6] [6, 1] [7, 6] _ _ hsix hcofactor (hmonic 6)
      ⟨48, -8, by push_cast; linear_combination 21 * heleven⟩
      (by rw [hresidue]; push_cast; linear_combination (-4 - 4 * X) * heleven)).1
    rw [hlifted, List.map_cons, List.map_singleton, List.prod_pair] at hprod
    rw [hpair] at hsplit
    exact ⟨hlifted, hprod, hpair, hsplit⟩
  · rw [List.forall_mem_cons, List.forall_mem_singleton, hsix.eq, hthree.eq]
    exact ⟨⟨hsix, hmonic 6⟩, hthree, hmonic 3⟩
  · refine List.pairwise_pair.2 ?_
    rw [hsix.eq, hthree.eq]
    exact ⟨4, -4, by push_cast; linear_combination heleven⟩
  · have hlead : C ((IntPoly.lead [-2, -1, 6] : ℤ) : ZMod 11) = (6 : (ZMod 11)[X]) := rfl
    rw [hresidue, hlead, List.map_cons, List.map_singleton, List.prod_pair, hsix.eq, hthree.eq]
    push_cast
    linear_combination (-10 - 5 * X) * heleven

end Hensel
end Meadow
