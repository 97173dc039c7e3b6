import Mathlib
import Meadow.Proofs.Recombination
import Meadow.Proofs.Univariate.Bound
import Meadow.Proofs.Univariate.Division
import Meadow.Proofs.Univariate.Factor
import Meadow.Proofs.Univariate.Hensel
import Meadow.Proofs.Univariate.ModularFactor

set_option autoImplicit false

/-!
# Irreducible factors of integer polynomials

If the factors modulo the chosen prime are irreducible, so are the factors over the integers
(`IntPoly.factorSquarefree_correct`).  The residues of the lifted factors are the pieces of a
search in the sense of `Recombination`, and `IntPoly.Recombining` is the state of it.  A factor
that takes some pieces is, up to its leading coefficient, the product of the lifted factors
there (`IntPoly.Recombining.modulo_pow_eq`), and as the modulus exceeds the bound for its
coefficients it is the candidate that they make (`IntPoly.Recombining.associated_candidate`).
So the search, which tries the smallest sets first, finds irreducible factors only and misses
none of its size.
-/

namespace Meadow

namespace IntPoly

open Polynomial

/-! ## Candidates -/

/-- Taking balanced residues does not change a product modulo `m`. -/
theorem modulo_foldl_balanced (m : ℕ) (acc : IntPoly) (chosen : List IntPoly) :
    modulo m (toPolynomial (chosen.foldl (fun acc g => balanced m (acc.mul g)) acc))
      = modulo m (toPolynomial acc * (chosen.map toPolynomial).prod) := by
  induction chosen generalizing acc with
  | nil => rw [List.foldl_nil, List.map_nil, List.prod_nil, mul_one]
  | cons g chosen ih =>
    rw [List.foldl_cons, ih, map_mul, modulo_balanced, toPolynomial_mul, ← map_mul, List.map_cons,
      List.prod_cons, mul_assoc]

/-- A product with small coefficients is recovered from its factors modulo `m`. -/
theorem toPolynomial_foldl_balanced {m : ℕ} {acc : IntPoly} {chosen : List IntPoly}
    (hne : chosen ≠ []) {d : ℤ[X]} (hd : ∀ i, 2 * (d.coeff i).natAbs < m)
    (h : modulo m (toPolynomial acc * (chosen.map toPolynomial).prod) = modulo m d) :
    toPolynomial (chosen.foldl (fun acc g => balanced m (acc.mul g)) acc) = d := by
  induction chosen generalizing acc with
  | nil => exact absurd rfl hne
  | cons g chosen ih =>
    rw [List.map_cons, List.prod_cons, ← mul_assoc, ← toPolynomial_mul] at h
    cases chosen with
    | nil =>
      rw [List.map_nil, List.prod_nil, mul_one] at h
      exact toPolynomial_balanced h hd
    | cons g' chosen =>
      refine ih (List.cons_ne_nil _ _) ?_
      rw [map_mul, modulo_balanced, ← map_mul, h]

/-- A constant primitive polynomial is a unit. -/
theorem isUnit_of_isPrimitive {d : ℤ[X]} (hd : d.IsPrimitive) (h : d.natDegree = 0) :
    IsUnit d := by
  have hconstant := eq_C_of_natDegree_eq_zero h
  rw [hconstant]
  exact isUnit_C.2 (hd _ (Dvd.intro 1 (by rw [mul_one, ← hconstant])))

/-- The primitive part of a multiple of a primitive polynomial is that polynomial. -/
theorem associated_primitive {a : IntPoly} {d : ℤ[X]} {c : ℤ} (hc : c ≠ 0) (hd : d.IsPrimitive)
    (h : toPolynomial a = C c * d) : Associated (toPolynomial a.primitive) d := by
  have ha : toPolynomial a ≠ 0 := by
    rw [h]
    exact mul_ne_zero (C_ne_zero.2 hc) hd.ne_zero
  have hunit : a.unitContent ≠ 0 := fun h0 => ha (toPolynomial_eq_zero_of_unitContent h0)
  have heq := toPolynomial_eq_unitContent_mul hunit
  have hcontent := congrArg Polynomial.content (heq.symm.trans h)
  rw [content_C_mul, content_C_mul, (isPrimitive_primitive ha).content_eq_one, hd.content_eq_one,
    mul_one, mul_one] at hcontent
  have hassoc := (associated_of_dvd_dvd (normalize_eq_normalize_iff.1 hcontent).1
    (normalize_eq_normalize_iff.1 hcontent).2).map (C : ℤ →+* ℤ[X])
  exact Associated.of_mul_left (Associated.of_eq (heq.symm.trans h)) hassoc (C_ne_zero.2 hunit)

/-- Modulo a prime, a polynomial that does not vanish keeps its primitive part. -/
theorem associated_modulo_primitive {p : ℕ} [Fact p.Prime] {a : IntPoly}
    (h : modulo p (toPolynomial a) ≠ 0) :
    Associated (modulo p (toPolynomial a)) (modulo p (toPolynomial a.primitive)) := by
  obtain ⟨c, -, heq⟩ := exists_toPolynomial_primitive a
  rw [heq, map_mul, modulo_C] at h ⊢
  have hc := C_ne_zero.1 (left_ne_zero_of_mul h)
  exact associated_unit_mul_left _ _ (isUnit_C.2 (isUnit_iff_ne_zero.2 hc))

/-- A primitive polynomial is a unit if it is constant. -/
theorem Trimmed.isUnit_iff {a : IntPoly} (h : Trimmed a) (hprim : (toPolynomial a).IsPrimitive) :
    IsUnit (toPolynomial a) ↔ a.length ≤ 1 := by
  have ha : a ≠ [] := mt h.toPolynomial_eq_zero_iff.2 hprim.ne_zero
  have hpos := List.length_pos_of_ne_nil ha
  have hdegree := h.natDegree_eq ha
  constructor
  · intro hunit
    have hzero := natDegree_eq_zero_of_isUnit hunit
    omega
  · intro hle
    exact isUnit_of_isPrimitive hprim (by omega)

/-! ## The state of the search -/

/-- The pieces at some places are the residues of the lifted factors there. -/
theorem prod_select (p : ℕ) (lifted : List IntPoly) (places : List ℕ) :
    (Subset.select (lifted.map fun l => modulo p (toPolynomial l)) places).prod
      = modulo p ((Subset.select lifted places).map toPolynomial).prod := by
  rw [Subset.select_map, map_list_prod, List.map_map]
  rfl

/-- A power of a good prime beyond the bound for the factors of a primitive polynomial. -/
structure Modulus (p k : ℕ) (f : IntPoly) : Prop extends GoodPrime p f where
  trimmed : Trimmed f
  primitive : (toPolynomial f).IsPrimitive
  pos : 0 < k
  bound : f.factorBound < p ^ k

/-- What is left of `f₀` with the lifted factors that are left: these make it up modulo the
power, and their residues are the pieces of a search. -/
structure Recombining (p k : ℕ) [Fact p.Prime] (f₀ : IntPoly) (size : ℕ) (f : IntPoly)
    (lifted : List IntPoly) : Prop where
  trimmed : Trimmed f
  dvd : toPolynomial f ∣ toPolynomial f₀
  monic : ∀ l ∈ lifted, (modulo (p ^ k) (toPolynomial l)).Monic
  prod : modulo (p ^ k) (toPolynomial f)
    = modulo (p ^ k) (C f.lead * (lifted.map toPolynomial).prod)
  pieces : Recombination (modulo p) size (toPolynomial f)
    (lifted.map fun l => modulo p (toPolynomial l))

namespace Modulus

variable {p k : ℕ} {f₀ : IntPoly}

theorem ne_nil (h : Modulus p k f₀) : f₀ ≠ [] := by
  rintro rfl
  exact h.lead Int.cast_zero

variable {d : ℤ[X]} (h : Modulus p k f₀) (hd : d ∣ toPolynomial f₀)

include h hd

theorem isPrimitive : d.IsPrimitive := isPrimitive_of_dvd h.primitive hd

theorem intCast_leadingCoeff : (d.leadingCoeff : ZMod p) ≠ 0 := by
  obtain ⟨e, he⟩ := hd
  have hlead := h.lead
  rw [← h.trimmed.leadingCoeff_eq, he, leadingCoeff_mul, Int.cast_mul] at hlead
  exact left_ne_zero_of_mul hlead

/-- A divisor takes at least one piece unless it is a unit. -/
theorem primeCount_pos [Fact p.Prime] (hu : ¬ IsUnit d) : 0 < primeCount (modulo p d) := by
  have hlead := h.intCast_leadingCoeff hd
  refine Meadow.primeCount_pos ?_ ?_
  · rw [← leadingCoeff_ne_zero, leadingCoeff_modulo hlead]
    exact hlead
  · intro hunit
    have hdegree := natDegree_eq_zero_of_isUnit hunit
    rw [natDegree_modulo hlead] at hdegree
    exact hu (isUnit_of_isPrimitive (h.isPrimitive hd) hdegree)

end Modulus

namespace Recombining

variable {p k size : ℕ} [Fact p.Prime] {f₀ f : IntPoly} {lifted chosen rest : List IntPoly}

/-- A factor that agrees with some lifted factors modulo the prime agrees with them modulo the
power, up to its leading coefficient. -/
theorem modulo_pow_eq (hm : Modulus p k f₀) (h : Recombining p k f₀ size f lifted)
    (hperm : (chosen ++ rest).Perm lifted) {d e : ℤ[X]} (heq : toPolynomial f = d * e)
    (hd : Associated (modulo p (chosen.map toPolynomial).prod) (modulo p d)) :
    modulo (p ^ k) d
      = modulo (p ^ k) (C d.leadingCoeff * (chosen.map toPolynomial).prod) := by
  have hlead : ((toPolynomial f).leadingCoeff : ZMod p) ≠ 0 := hm.intCast_leadingCoeff h.dvd
  have hprod : (lifted.map toPolynomial).prod
      = (chosen.map toPolynomial).prod * (rest.map toPolynomial).prod := by
    rw [← List.prod_append, ← List.map_append]
    exact (hperm.map toPolynomial).symm.prod_eq
  have hlift := h.prod
  rw [hprod, map_mul, map_mul, modulo_C, ← h.trimmed.leadingCoeff_eq] at hlift
  rw [map_mul, modulo_C]
  refine modulo_pow_eq_of_associated heq hlead hlift hd hm.pos ?_ ?_
  · rw [map_list_prod, List.map_map]
    refine List.prod_induction Monic (fun _ _ ha hb => ha.mul hb) monic_one ?_
    intro r hr
    obtain ⟨l, hl, rfl⟩ := List.mem_map.1 hr
    exact h.monic l (hperm.mem_iff.1 (List.mem_append_left _ hl))
  · have hmod : modulo p (toPolynomial f) = modulo p (C f.lead * (lifted.map toPolynomial).prod) :=
      modulo_eq_of_dvd (dvd_pow_self p hm.pos.ne') h.prod
    rw [map_mul, hprod, map_mul] at hmod
    have hseparable := hm.separable.of_dvd (map_dvd (modulo p) h.dvd)
    rw [hmod] at hseparable
    exact hseparable.of_mul_right.isCoprime

variable {places : List ℕ}

/-- What a factor leaves is made up of the lifted factors that it does not take. -/
theorem cofactor (hm : Modulus p k f₀) (h : Recombining p k f₀ size f lifted) {c q : IntPoly}
    (heq : toPolynomial f = toPolynomial c * toPolynomial q) (hq : Trimmed q)
    (hplaces : Subset.Ascending lifted.length 0 places)
    (hc : Associated (modulo p ((Subset.select lifted places).map toPolynomial).prod)
      (modulo p (toPolynomial c))) :
    Recombining p k f₀ size q (Subset.remove lifted places) := by
  have hperm := Subset.perm_select_append_remove hplaces
  have hpieces := h.pieces.cofactor heq (by rwa [List.length_map]) (by rwa [prod_select])
  rw [Subset.remove_map] at hpieces
  have hassoc := hpieces.associated
  rw [← Function.comp_def (modulo p) toPolynomial, ← List.map_map, ← map_list_prod] at hassoc
  refine ⟨hq, (Dvd.intro_left _ heq.symm).trans h.dvd, ?_, ?_, hpieces⟩
  · intro l hl
    exact h.monic l (hperm.mem_iff.1 (List.mem_append_right _ hl))
  · rw [← hq.leadingCoeff_eq]
    exact h.modulo_pow_eq hm (List.perm_append_comm.trans hperm) (heq.trans (mul_comm _ _)) hassoc

/-! ## What the search finds -/

theorem lead_ne_zero (hm : Modulus p k f₀) (h : Recombining p k f₀ size f lifted) :
    (f.lead : ZMod p) ≠ 0 := by
  rw [← h.trimmed.leadingCoeff_eq]
  exact hm.intCast_leadingCoeff h.dvd

theorem ne_nil (hm : Modulus p k f₀) (h : Recombining p k f₀ size f lifted) : f ≠ [] := by
  rintro rfl
  exact h.lead_ne_zero hm Int.cast_zero

theorem trimmed_candidate (hm : Modulus p k f₀) (h : Recombining p k f₀ size f lifted)
    (chosen : List IntPoly) : Trimmed (candidate f (p ^ k) chosen) :=
  (trimmed_product (h.trimmed.lead_ne_zero (h.ne_nil hm)) _ chosen).primitive

/-- A factor that is found takes the pieces of the lifted factors that it is made of. -/
theorem associated_modulo_candidate (hm : Modulus p k f₀) (h : Recombining p k f₀ size f lifted)
    (places : List ℕ) : Associated (modulo p ((Subset.select lifted places).map toPolynomial).prod)
      (modulo p (toPolynomial (candidate f (p ^ k) (Subset.select lifted places)))) := by
  set chosen := Subset.select lifted places
  set product := chosen.foldl (fun acc g => balanced (p ^ k) (acc.mul g)) [f.lead]
  have hlead := h.lead_ne_zero hm
  have hproduct : modulo p (toPolynomial product)
      = C (f.lead : ZMod p) * modulo p (chosen.map toPolynomial).prod := by
    rw [← modulo_C, ← map_mul, ← toPolynomial_singleton]
    exact modulo_eq_of_dvd (dvd_pow_self p hm.pos.ne') (modulo_foldl_balanced _ _ _)
  have hchosen : modulo p (chosen.map toPolynomial).prod ≠ 0 := by
    rw [← prod_select]
    exact List.prod_ne_zero fun h0 => (h.pieces.prime_of_mem_select 0 h0).ne_zero rfl
  have hproduct0 : modulo p (toPolynomial product) ≠ 0 := by
    rw [hproduct]
    exact mul_ne_zero (C_ne_zero.2 hlead) hchosen
  have hassoc := associated_unit_mul_left (modulo p (chosen.map toPolynomial).prod) _
    (isUnit_C.2 (isUnit_iff_ne_zero.2 hlead))
  rw [← hproduct] at hassoc
  exact hassoc.symm.trans (associated_modulo_primitive hproduct0)

/-- A factor that is found takes the pieces at as many places as the sets searched have. -/
theorem exists_places_of_findFactor?_eq_some (hm : Modulus p k f₀)
    (h : Recombining p k f₀ size f lifted) (hsize : size ≤ lifted.length) {found : Found}
    (hfound : findFactor? f (p ^ k) lifted size = some found) :
    Subset.Ascending lifted.length 0 found.places ∧ found.places.length = size ∧
      ¬ IsUnit (toPolynomial found.factor) ∧ Trimmed found.cofactor ∧
      Associated (modulo p ((Subset.select lifted found.places).map toPolynomial).prod)
        (modulo p (toPolynomial found.factor)) := by
  obtain ⟨places, hplaces, hlen, htest⟩ :=
    Subset.exists_ascending_of_search?_eq_some hsize hfound
  dsimp only at htest
  split at htest
  · next hlong =>
    obtain ⟨q, hq, rfl⟩ := Option.map_eq_some_iff.1 htest
    have hcandidate := h.trimmed_candidate hm (Subset.select lifted places)
    have hdvd := (Dvd.intro_left _ (toPolynomial_divExact? hq).symm).trans h.dvd
    refine ⟨hplaces, hlen, ?_, ?_, h.associated_modulo_candidate hm places⟩
    · rw [hcandidate.isUnit_iff (hm.isPrimitive hdvd)]
      exact not_le.2 hlong
    · exact trimmed_of_divExact?_eq_some h.trimmed (h.ne_nil hm) hcandidate hq
  · cases htest

/-! ## What the search misses -/

/-- The lifted factors that a factor takes make it their candidate. -/
theorem associated_candidate (hm : Modulus p k f₀) (h : Recombining p k f₀ size f lifted)
    (hplaces : Subset.Ascending lifted.length 0 places) (hne : Subset.select lifted places ≠ [])
    {d : ℤ[X]} (hd : d ∣ toPolynomial f)
    (hassoc : Associated (modulo p ((Subset.select lifted places).map toPolynomial).prod)
      (modulo p d)) :
    Associated (toPolynomial (candidate f (p ^ k) (Subset.select lifted places))) d := by
  obtain ⟨e, he⟩ := hd
  have hd₀ : d ∣ toPolynomial f₀ := (Dvd.intro e he.symm).trans h.dvd
  have he₀ : e ∣ toPolynomial f₀ := (Dvd.intro_left d he.symm).trans h.dvd
  have hlead : f.lead = d.leadingCoeff * e.leadingCoeff := by
    rw [← h.trimmed.leadingCoeff_eq, he, leadingCoeff_mul]
  have he0 : e.leadingCoeff ≠ 0 := fun h0 => hm.intCast_leadingCoeff he₀ (by rw [h0, Int.cast_zero])
  refine associated_primitive he0 (hm.isPrimitive hd₀) (toPolynomial_foldl_balanced hne ?_ ?_)
  · intro i
    have hdvd : e.leadingCoeff ∣ f₀.lead := by
      rw [← hm.trimmed.leadingCoeff_eq]
      exact leadingCoeff_dvd_leadingCoeff he₀
    rw [coeff_C_mul]
    exact (two_mul_natAbs_lt_factorBound hm.trimmed hm.ne_nil hd₀ hdvd i).trans hm.bound
  · have hpow := h.modulo_pow_eq hm (Subset.perm_select_append_remove hplaces) he hassoc
    simp only [toPolynomial_singleton, hlead, map_mul] at hpow ⊢
    rw [hpow]
    ring

/-- Where no factor is found, none takes as many pieces as the sets searched have. -/
theorem primeCount_ne_of_findFactor?_eq_none (hm : Modulus p k f₀)
    (h : Recombining p k f₀ size f lifted) (hpos : 0 < size) (hsize : size ≤ lifted.length)
    (hnone : findFactor? f (p ^ k) lifted size = none) :
    ∀ d, d ∣ toPolynomial f → ¬ IsUnit d → primeCount (modulo p d) ≠ size := by
  intro d hd hu hcount
  obtain ⟨places, hplaces, hlen, hassoc⟩ := h.pieces.exists_places hd
  rw [List.length_map] at hplaces
  rw [prod_select] at hassoc
  have htest := Subset.eq_none_of_search?_eq_none hsize hnone hplaces (hlen.trans hcount)
  have hne : Subset.select lifted places ≠ [] := by
    rw [← List.length_pos_iff, Subset.length_select hplaces]
    omega
  have hcandidate := h.associated_candidate hm hplaces hne hd hassoc
  have htrimmed := h.trimmed_candidate hm (Subset.select lifted places)
  obtain ⟨q, hq, -⟩ := exists_divExact?_eq_some h.trimmed (h.ne_nil hm) htrimmed
    (hcandidate.dvd.trans hd)
  have hlong : (candidate f (p ^ k) (Subset.select lifted places)).length > 1 := by
    have hprimitive := hm.isPrimitive ((hcandidate.dvd.trans hd).trans h.dvd)
    by_contra hshort
    exact hu (hcandidate.isUnit ((htrimmed.isUnit_iff hprimitive).2 (not_lt.1 hshort)))
  dsimp only at htest
  rw [if_pos hlong, hq] at htest
  cases htest

/-! ## The whole search -/

/-- The search takes irreducible factors off and stops at what is irreducible: the sets grow
only once no factor takes so few lifted factors. -/
theorem irreducible_of_mem_recombineSteps (hm : Modulus p k f₀)
    (h : Recombining p k f₀ size f lifted) (hsize : 0 < size) (hne : lifted ≠ []) {steps : ℕ}
    (hsteps : lifted.length < steps + size) :
    ∀ g ∈ recombineSteps (p ^ k) steps size f lifted, Irreducible (toPolynomial g) := by
  have hwhole {size : ℕ} {f : IntPoly} {lifted : List IntPoly}
      (h : Recombining p k f₀ size f lifted) (hne : lifted ≠ []) (hlt : lifted.length < 2 * size) :
      ∀ g ∈ [f], Irreducible (toPolynomial g) := by
    intro g hg
    rw [List.mem_singleton.1 hg]
    exact h.pieces.irreducible (h.pieces.not_isUnit (mt List.map_eq_nil_iff.1 hne))
      (by rwa [List.length_map])
  induction steps generalizing size f lifted with
  | zero => exact hwhole h hne (by omega)
  | succ steps ih =>
    unfold recombineSteps
    split
    · next hroom =>
      have hle : size ≤ lifted.length := by omega
      split
      · next found hfound =>
        obtain ⟨hplaces, hlen, hunit, htrimmed, hassoc⟩ :=
          h.exists_places_of_findFactor?_eq_some hm hle hfound
        have heq := toPolynomial_of_findFactor? hfound
        have hlength := (Subset.perm_select_append_remove hplaces).length_eq
        rw [List.length_append, Subset.length_select hplaces] at hlength
        refine List.forall_mem_cons.2 ⟨?_, ?_⟩
        · exact h.pieces.irreducible_divisor (by rwa [List.length_map]) (by rwa [prod_select])
            ⟨_, heq⟩ hunit hsize hlen
        · exact ih (h.cofactor hm heq htrimmed hplaces hassoc) hsize
            (List.ne_nil_of_length_pos (by omega)) (by omega)
      · next hnone =>
        have hne' := h.primeCount_ne_of_findFactor?_eq_none hm hsize hle hnone
        exact ih ⟨h.trimmed, h.dvd, h.monic, h.prod, h.pieces.succ hne'⟩ (Nat.succ_pos size) hne
          (by omega)
    · exact hwhole h hne (by omega)

end Recombining

/-! ## The factors of a polynomial -/

/-- A primitive polynomial of degree one has no proper factors. -/
theorem irreducible_of_natDegree_eq_one {d : ℤ[X]} (hd : d.IsPrimitive)
    (hdegree : d.natDegree = 1) : Irreducible d := by
  refine ⟨fun hunit => ?_, fun a b hab => ?_⟩
  · have hzero := natDegree_eq_zero_of_isUnit hunit
    omega
  · have hne := hd.ne_zero
    rw [hab] at hne hdegree
    rw [natDegree_mul (left_ne_zero_of_mul hne) (right_ne_zero_of_mul hne)] at hdegree
    rcases Nat.eq_zero_or_pos a.natDegree with ha | ha
    · exact Or.inl (isUnit_of_isPrimitive (isPrimitive_of_dvd hd ⟨b, hab⟩) ha)
    · refine Or.inr (isUnit_of_isPrimitive (isPrimitive_of_dvd hd ⟨a, hab.trans (mul_comm a b)⟩) ?_)
      omega

section Modular

variable {p k : ℕ} [Fact p.Prime] {f : IntPoly} {modular : List ModPoly}

theorem modulo_eq_of_splitting (hm : Modulus p k f)
    (h : ModPoly.Splitting p (monicModulo p f) modular) :
    modulo p (toPolynomial f)
      = C (f.lead : ZMod p) * (modular.map (ModPoly.toPolynomial p)).prod := by
  rw [h.prod, monicModulo, mul_left_comm, ← C_mul, mul_inv_cancel₀ hm.lead, C_1, mul_one]

/-- The irreducible factors modulo the prime are the pieces of the polynomial. -/
theorem recombination_modular (hm : Modulus p k f)
    (h : ModPoly.Splitting p (monicModulo p f) modular)
    (hirr : ∀ a ∈ modular, Irreducible (ModPoly.toPolynomial p a)) :
    Recombination (modulo p) 1 (toPolynomial f) (modular.map (ModPoly.toPolynomial p)) where
  prime := by
    intro r hr
    obtain ⟨a, ha, rfl⟩ := List.mem_map.1 hr
    exact (hirr a ha).prime
  associated := by
    rw [modulo_eq_of_splitting hm h]
    exact (associated_unit_mul_left _ _ (isUnit_C.2 (isUnit_iff_ne_zero.2 hm.lead))).symm
  minimal := fun d hd hu => hm.primeCount_pos hd hu

/-- The search starts with all lifted factors. -/
theorem recombining_liftAll [Fact (p < primeLimit)] (hm : Modulus p k f)
    (h : ModPoly.Splitting p (monicModulo p f) modular) (hne : modular ≠ [])
    (hirr : ∀ a ∈ modular, Irreducible (ModPoly.toPolynomial p a)) :
    Recombining p k f 1 f (Hensel.liftAll p k (f.residues (p ^ k)) modular) := by
  have hliftable : Hensel.Liftable p f modular :=
    ⟨h.denotes, h.monic, h.pairwise_isCoprime hm.toGoodPrime.separable_monicModulo, hm.trimmed,
      hm.lead, modulo_eq_of_splitting hm h⟩
  have hlifting := hliftable.liftedFactors_residues hm.pos hne
  refine ⟨hm.trimmed, dvd_rfl, hlifting.monic, hlifting.prod, ?_⟩
  rw [hlifting.residues]
  exact recombination_modular hm h hirr

end Modular

/-- The primitive part has the degree of the polynomial. -/
theorem natDegree_primitive (f : IntPoly) :
    (toPolynomial (primitive (trim f))).natDegree = (toPolynomial f).natDegree := by
  obtain ⟨c, hc, heq⟩ := exists_toPolynomial_primitive (trim f)
  rw [← toPolynomial_trim f, heq, natDegree_C_mul hc]

/-- If the factors modulo the prime are irreducible, so are the factors over the integers. -/
theorem irreducible_of_mem_factorSquarefree {f : IntPoly} {p : ℕ} {modular : List ModPoly}
    (hdegree : 1 ≤ (toPolynomial f).natDegree)
    (hmodular : modularFactors? (primitive (trim f)) = some (p, modular))
    (hirr : ∀ a ∈ modular, Irreducible (ModPoly.toPolynomial p a)) :
    ∀ g ∈ factorSquarefree f, Irreducible (toPolynomial g) := by
  have hf : toPolynomial (trim f) ≠ 0 := by
    rw [toPolynomial_trim]
    intro h0
    rw [h0, natDegree_zero] at hdegree
    exact Nat.not_succ_le_zero 0 hdegree
  have htrimmed : Trimmed (primitive (trim f)) := (trimmed_trim f).primitive
  have hprimitive := isPrimitive_primitive hf
  rw [← natDegree_primitive] at hdegree
  obtain ⟨hgood, hsplit⟩ := modularFactors?_eq_some htrimmed hmodular
  have hm : Modulus p (liftExponent p (primitive (trim f))) (primitive (trim f)) :=
    ⟨hgood, htrimmed, hprimitive, liftExponent_pos _ _, factorBound_lt_pow hgood.prime.two_le _⟩
  have : Fact p.Prime := ⟨hgood.prime⟩
  have : Fact (p < primeLimit) := ⟨hgood.lt⟩
  have hnatDegree := htrimmed.natDegree_eq hm.ne_nil
  unfold factorSquarefree
  dsimp only
  split
  · refine List.forall_mem_singleton.2 (irreducible_of_natDegree_eq_one hprimitive ?_)
    omega
  · rw [hmodular]
    dsimp only
    split
    · next hfew =>
      refine List.forall_mem_singleton.2 ?_
      refine (recombination_modular hm hsplit hirr).irreducible ?_ ?_
      · intro hunit
        have hzero := natDegree_eq_zero_of_isUnit hunit
        omega
      · rw [List.length_map]
        omega
    · next hmany =>
      have hne : modular ≠ [] := by
        rintro rfl
        exact hmany (Nat.zero_le 1)
      exact (recombining_liftAll hm hsplit hne hirr).irreducible_of_mem_recombineSteps hm
        Nat.one_pos (Hensel.liftAll_ne_nil _ _ _ _) (Nat.lt_add_right 1 (Nat.lt_succ_self _))

/-- The factors of a polynomial of positive degree are primitive with positive leading
coefficients and multiply to its primitive part; they are irreducible if the factors modulo the
prime are.  A polynomial that is not squarefree has no prime modulo which it is, and stays
whole. -/
theorem factorSquarefree_correct {f : IntPoly} (hdegree : 1 ≤ (toPolynomial f).natDegree) :
    (∀ g ∈ factorSquarefree f,
      (toPolynomial g).IsPrimitive ∧ 0 < (toPolynomial g).leadingCoeff) ∧
    ((factorSquarefree f).map toPolynomial).prod
      = C (toPolynomial f).leadingCoeff.sign * (toPolynomial f).primPart ∧
    ∀ p modular, modularFactors? (primitive (trim f)) = some (p, modular) →
      (∀ a ∈ modular, Irreducible (ModPoly.toPolynomial p a)) →
      ∀ g ∈ factorSquarefree f, Irreducible (toPolynomial g) := by
  have hf : toPolynomial f ≠ 0 := by
    intro h0
    rw [h0, natDegree_zero] at hdegree
    exact Nat.not_succ_le_zero 0 hdegree
  have htrimmed := trimmed_trim f
  have hne : trim f ≠ [] := by
    rwa [Ne, ← htrimmed.toPolynomial_eq_zero_iff, toPolynomial_trim]
  have hprod := prod_factorSquarefree f
  refine ⟨?_, ?_, fun p modular hmodular hirr =>
    irreducible_of_mem_factorSquarefree hdegree hmodular hirr⟩
  · intro g hg
    refine ⟨isPrimitive_of_dvd (isPrimitive_primitive (by rwa [toPolynomial_trim])) ?_,
      leadingCoeff_pos_of_mem_factorSquarefree hf g hg⟩
    rw [← hprod]
    exact List.dvd_prod (List.mem_map_of_mem hg)
  · rw [hprod, htrimmed.toPolynomial_primitive hne, ← htrimmed.leadingCoeff_eq, toPolynomial_trim]

/-- The polynomial `x ^ 4 + 1` falls apart modulo every prime but is irreducible. -/
theorem factorSquarefree_correct_quartic :
    modularFactors? (primitive (trim [1, 0, 0, 0, 1])) = some (3, [[2, 2, 1], [2, 1, 1]]) ∧
      factorSquarefree [1, 0, 0, 0, 1] = [[1, 0, 0, 0, 1]] ∧
      ∀ g ∈ factorSquarefree [1, 0, 0, 0, 1], Irreducible (toPolynomial g) := by
  have hmodular : modularFactors? (primitive (trim [1, 0, 0, 0, 1]))
      = some (3, [[2, 2, 1], [2, 1, 1]]) := by decide +kernel
  have hdegree : 1 ≤ (toPolynomial [1, 0, 0, 0, 1]).natDegree := by
    have htrimmed : Trimmed [1, 0, 0, 0, 1] := by simp [Trimmed]
    rw [htrimmed.natDegree_eq (List.cons_ne_nil _ _)]
    decide
  have hquadratic {c d : ℕ} (hlt : ∀ x ∈ [c, d, 1], x < 3)
      (hroot : ∀ x : ZMod 3, c + x * (d + x) ≠ 0) :
      Irreducible (ModPoly.toPolynomial 3 [c, d, 1]) := by
    have hdenotes : ModPoly.Denotes 3 [c, d, 1] (ModPoly.toPolynomial 3 [c, d, 1]) :=
      ⟨hlt, by simp, rfl⟩
    refine irreducible_of_degree_le_three_of_not_isRoot ?_ fun x hx => hroot x ?_
    · rw [hdenotes.natDegree_eq]
      exact Finset.mem_Icc.2 ⟨one_le_two, Nat.le_succ 2⟩
    · simpa [ModPoly.toPolynomial] using hx
  refine ⟨hmodular, by decide +kernel, (factorSquarefree_correct hdegree).2.2 3 _ hmodular ?_⟩
  intro a ha
  simp only [List.mem_cons, List.not_mem_nil, or_false] at ha
  rcases ha with rfl | rfl
  · exact hquadratic (by decide) (by decide)
  · exact hquadratic (by decide) (by decide)

end IntPoly
end Meadow
