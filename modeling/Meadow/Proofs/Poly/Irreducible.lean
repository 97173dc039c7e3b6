import Mathlib
import Meadow.Proofs.Poly.CanonicalFactors
import Meadow.Proofs.Poly.Image
import Meadow.Proofs.Recombination

set_option autoImplicit false

/-!
# Irreducible factors

Where the images fall into irreducible pieces, and no part has too large an image, the
factors of a polynomial are irreducible (`Poly.irreducible_of_mem_factorize`).  A divisor of
a part takes some of the pieces of its image, and the product of these pieces is the image of
the divisor, up to a constant; so the search for divisors by sets of pieces, the smallest
first, meets them all (`Poly.primeCount_ne_of_findDivisor?_eq_none`).
-/

namespace Meadow

namespace Poly

/-! ## Polynomials in the image variable -/

/-- A polynomial in the image variable, from rational coefficients. -/
noncomputable def ratHom : Polynomial ℚ →+* Poly :=
  Polynomial.eval₂RingHom constantHom (var Kronecker.imageVar)

theorem ratHom_monomial (n : ℕ) (c : ℚ) :
    ratHom (Polynomial.monomial n c) = constant c * var Kronecker.imageVar ^ n :=
  Polynomial.eval₂_monomial _ _

theorem imageHom_eq_ratHom (f : Polynomial ℤ) :
    imageHom f = ratHom (f.map (Int.castRingHom ℚ)) := by
  have hcomp : constantHom.comp (Int.castRingHom ℚ) = Int.castRingHom Poly :=
    RingHom.ext_int _ _
  change _ = Polynomial.eval₂ constantHom (var Kronecker.imageVar) (f.map (Int.castRingHom ℚ))
  rw [Polynomial.eval₂_map, hcomp]
  rfl

theorem ratHom_injective : Function.Injective ratHom := by
  have hcomp : (inVar Kronecker.imageVar).comp ratHom = Polynomial.mapRingHom constantHom := by
    refine Polynomial.ringHom_ext (fun c => ?_) ?_
    · have hconstant : ratHom (Polynomial.C c) = constant c := Polynomial.eval₂_C _ _
      rw [RingHom.comp_apply, hconstant, inVar_constant, Polynomial.coe_mapRingHom,
        Polynomial.map_C]
      rfl
    · have hvar : ratHom Polynomial.X = var Kronecker.imageVar := Polynomial.eval₂_X _ _
      rw [RingHom.comp_apply, hvar, inVar_var, if_pos rfl, Polynomial.coe_mapRingHom,
        Polynomial.map_X]
  intro f g h
  have hmap := congrArg (inVar Kronecker.imageVar) h
  rw [← RingHom.comp_apply, ← RingHom.comp_apply, hcomp] at hmap
  exact Polynomial.map_injective constantHom constant_injective hmap

theorem over_ratHom (f : Polynomial ℚ) : Over [Kronecker.imageVar] (ratHom f) := by
  induction f using Polynomial.induction_on' with
  | add f g hf hg =>
    rw [map_add]
    exact hf.add hg
  | monomial n c =>
    intro x hx
    have hne : x ≠ Kronecker.imageVar := fun h => hx (List.mem_singleton.2 h)
    have hpow := degreeIn_pow_le (var Kronecker.imageVar) n x
    have hmul := degreeIn_mul_le (constant c) (var Kronecker.imageVar ^ n) x
    rw [degreeIn_var, if_neg hne, mul_zero] at hpow
    rw [degreeIn_constant] at hmul
    rw [ratHom_monomial]
    omega

theorem exists_ratHom_of_over {p : Poly} (hp : Over [Kronecker.imageVar] p) :
    ∃ f, ratHom f = p := by
  refine ⟨∑ i ∈ Finset.range ((inVar Kronecker.imageVar p).natDegree + 1),
    Polynomial.monomial i ((p.coefficientIn Kronecker.imageVar i).coeff .one), ?_⟩
  conv_rhs => rw [← eval_inVar Kronecker.imageVar p, Polynomial.eval_eq_sum_range]
  rw [map_sum]
  refine Finset.sum_congr rfl fun i _ => ?_
  rw [ratHom_monomial, coeff_inVar, ← coefficientIn_eq_constant hp]

/-- An irreducible polynomial in the image variable stays irreducible among the polynomials in
all variables. -/
theorem irreducible_ratHom {f : Polynomial ℚ} (hf : Irreducible f) : Irreducible (ratHom f) := by
  have hf0 : ratHom f ≠ 0 := fun h => hf.ne_zero (ratHom_injective (h.trans (map_zero ratHom).symm))
  refine ⟨fun hunit => ?_, fun a b hab => ?_⟩
  · obtain ⟨c, hc⟩ := isConstant_iff.1 (isUnit_iff.1 hunit).1
    have hconstant : ratHom (Polynomial.C c) = constant c := Polynomial.eval₂_C _ _
    rw [← hconstant] at hc
    have heq := ratHom_injective hc
    refine hf.not_isUnit (heq ▸ Polynomial.isUnit_C.2 (isUnit_iff_ne_zero.2 fun h0 => ?_))
    rw [heq, h0, Polynomial.C_0, map_zero] at hf0
    exact hf0 rfl
  · obtain ⟨g, rfl⟩ := exists_ratHom_of_over ((over_ratHom f).of_dvd hf0 ⟨b, hab⟩)
    obtain ⟨h, rfl⟩ := exists_ratHom_of_over
      ((over_ratHom f).of_dvd hf0 ⟨_, hab.trans (mul_comm _ _)⟩)
    rw [← map_mul] at hab
    rcases hf.isUnit_or_isUnit (ratHom_injective hab) with hu | hu
    · exact Or.inl (hu.map ratHom)
    · exact Or.inr (hu.map ratHom)

/-- By Gauss's lemma, a primitive irreducible integer polynomial is irreducible over the
rationals. -/
theorem prime_ofImageCoefficients {cs : IntPoly} (hprim : (IntPoly.toPolynomial cs).IsPrimitive)
    (hcs : Irreducible (IntPoly.toPolynomial cs)) : Prime (ofImageCoefficients cs) := by
  rw [ofImageCoefficients_eq, imageHom_eq_ratHom]
  have hrational := (Polynomial.IsPrimitive.Int.irreducible_iff_irreducible_map_cast hprim).1 hcs
  exact (irreducible_ratHom hrational).prime

/-! ## Pieces -/

/-- The integer polynomials whose factors make up those of an image. -/
def imageInputs (image : Poly) : List IntPoly :=
  let rest := (image.divMonomial? image.monomialContent).getD image
  (squarefreeParts rest Kronecker.imageVar).map fun part => imageCoefficients part.1

theorem prime_of_mem_imageFactors {image : Poly} (hover : Over [Kronecker.imageVar] image)
    (h0 : image ≠ 0) (hinputs : ∀ f ∈ imageInputs image, ∀ g ∈ IntPoly.factorSquarefree f,
      Irreducible (IntPoly.toPolynomial g)) : ∀ r ∈ imageFactors image, Prime r := by
  obtain ⟨rest, hrest, heq⟩ := exists_divMonomial?_monomialContent image
  have hdvd : rest ∣ image := ⟨_, heq.trans (mul_comm _ _)⟩
  have hrest0 := ne_zero_of_dvd_ne_zero h0 hdvd
  have hrestover := hover.of_dvd h0 hdvd
  have hprim := primitiveIn_of_over hrestover hrest0
  intro r hr
  rw [imageFactors, hrest, Option.getD_some] at hr
  rw [imageInputs, hrest, Option.getD_some] at hinputs
  rcases List.mem_append.1 hr with hr | hr
  · rw [(List.mem_replicate.1 hr).2]
    exact prime_var _
  · obtain ⟨part, hpart, hr⟩ := List.mem_flatMap.1 hr
    obtain ⟨cs, hcs, hr⟩ := List.mem_flatMap.1 hr
    rw [(List.mem_replicate.1 hr).2]
    have hpartdvd := dvd_of_mem_squarefreeParts hprim hpart
    have hpart0 := ne_zero_of_dvd_ne_zero hrest0 hpartdvd
    have hinput0 : IntPoly.toPolynomial (IntPoly.trim (imageCoefficients part.1)) ≠ 0 := by
      intro hzero
      refine normalized_ne_zero hpart0 ?_
      rw [← ofImageCoefficients_imageCoefficients (hrestover.of_dvd hrest0 hpartdvd),
        ofImageCoefficients_eq, ← IntPoly.toPolynomial_trim, hzero, map_zero]
    have hmem := List.dvd_prod (List.mem_map_of_mem (f := IntPoly.toPolynomial) hcs)
    rw [IntPoly.prod_factorSquarefree] at hmem
    exact prime_ofImageCoefficients
      (Polynomial.isPrimitive_of_dvd (IntPoly.isPrimitive_primitive hinput0) hmem)
      (hinputs _ (List.mem_map_of_mem hpart) cs hcs)

/-! ## The search for divisors -/

section Search

variable {k : Kronecker} {p q : Poly} {pieces : List Poly} {size : ℕ}
  (hk : Kronecker.ofPoly? p = some k) (h : Recombination k.hom size q pieces)
  (hsize : size ≤ pieces.length)

include hk h hsize

/-- A divisor that is found takes pieces at as many places as the sets searched have. -/
theorem exists_places_of_findDivisor?_eq_some {found : Found}
    (hfound : findDivisor? k q pieces size = some found) :
    Subset.Ascending pieces.length 0 found.places ∧ found.places.length = size ∧
      found.divisor.isConstant = false ∧
      Associated (Subset.select pieces found.places).prod (k.hom found.divisor) := by
  obtain ⟨places, hplaces, hlen, htest⟩ :=
    Subset.exists_ascending_of_search?_eq_some hsize hfound
  split at htest
  · cases htest
  · next c hc =>
    split at htest
    · cases htest
    · next hconst =>
      obtain ⟨cofactor, -, rfl⟩ := Option.map_eq_some_iff.1 htest
      rw [foldl_mul_eq_prod] at hc
      have hdvd : (Subset.select pieces places).prod ∣ pieces.prod := by
        rw [← (Subset.perm_select_append_remove hplaces).prod_eq, List.prod_append]
        exact dvd_mul_right _ _
      have hover := (k.over_hom q).of_dvd h.image_ne_zero (hdvd.trans h.associated.dvd)
      refine ⟨hplaces, hlen, Bool.eq_false_iff.2 hconst, ?_⟩
      rw [(Kronecker.hom_of_preimage?_eq_some hk hover hc).1]

/-- Where no divisor is found, none takes as many pieces as the sets searched have. -/
theorem primeCount_ne_of_findDivisor?_eq_none (hp : p ≠ 0) (hq : q ∣ p)
    (hnone : findDivisor? k q pieces size = none) :
    ∀ d, d ∣ q → ¬ IsUnit d → primeCount (k.hom d) ≠ size := by
  intro d hd hu hcount
  obtain ⟨places, hplaces, hlen, hassoc⟩ := h.exists_places hd
  have htest := Subset.eq_none_of_search?_eq_none hsize hnone hplaces (hlen.trans hcount)
  -- the product of the pieces is the image of a multiple of `d` by a constant
  obtain ⟨u, hunit⟩ := hassoc.symm
  obtain ⟨c, hc⟩ := isConstant_iff.1 (isUnit_iff.1 u.isUnit).1
  rw [hc, ← k.hom_constant c, ← map_mul] at hunit
  have hassoc' : Associated d (d * constant c) := ⟨u, by rw [hc]⟩
  have hdvd : d * constant c ∣ q := hassoc'.symm.dvd.trans hd
  have hconst : (d * constant c).isConstant ≠ true := fun hconst =>
    hu (hassoc'.symm.isUnit (isUnit_iff.2 ⟨hconst, ne_zero_of_dvd_ne_zero
      (ne_zero_of_dvd_ne_zero hp hq) hdvd⟩))
  obtain ⟨e, he⟩ := hdvd
  have hdivide : q.divExact? (d * constant c) = some e :=
    divExact?_eq_some_iff.2 ⟨fun h0 => hconst (by rw [h0]; rfl), he.trans (mul_comm _ _)⟩
  rw [foldl_mul_eq_prod, ← hunit,
    Kronecker.preimage?_hom hk (Kronecker.fits_of_dvd hp ((Dvd.intro e he.symm).trans hq))] at htest
  dsimp only at htest
  rw [if_neg hconst, hdivide] at htest
  cases htest

end Search

/-- The search takes irreducible divisors off and stops at what is irreducible: the sets grow
only once no divisor takes so few pieces. -/
theorem irreducible_of_mem_recombineSteps {k : Kronecker} {p q : Poly} {pieces : List Poly}
    {steps size : ℕ} (hk : Kronecker.ofPoly? p = some k) (hp : p ≠ 0) (hq : q ∣ p)
    (h : Recombination k.hom size q pieces) (hsize : 0 < size)
    (hsteps : pieces.length < steps + size) :
    ∀ f ∈ recombineSteps k steps size q pieces, Irreducible f := by
  have hwhole {q : Poly} {size : ℕ} {pieces : List Poly} (hq : q ∣ p)
      (h : Recombination k.hom size q pieces) (hlt : pieces.length < 2 * size) :
      ∀ f ∈ (if q.isConstant then [] else [q.normalized]), Irreducible f := by
    split
    · intro f hf
      cases hf
    · next hconst =>
      intro f hf
      have hunit : ¬ IsUnit q := fun hu => hconst (isUnit_iff.1 hu).1
      rw [List.mem_singleton.1 hf]
      exact (associated_normalized q).irreducible (h.irreducible hunit hlt)
  induction steps generalizing size q pieces with
  | zero => exact hwhole hq h (by omega)
  | succ steps ih =>
    unfold recombineSteps
    split
    · next hroom =>
      have hle : size ≤ pieces.length := by omega
      split
      · next found hfound =>
        obtain ⟨hplaces, hlen, hconst, hassoc⟩ :=
          exists_places_of_findDivisor?_eq_some hk h hle hfound
        have heq := eq_mul_of_findDivisor? hfound
        have hunit : ¬ IsUnit found.divisor := fun hu => by
          rw [isUnit_iff, hconst] at hu
          exact Bool.false_ne_true hu.1
        have hrest := Subset.perm_select_append_remove hplaces
        have hlength := hrest.length_eq
        rw [List.length_append, Subset.length_select hplaces] at hlength
        refine List.forall_mem_cons.2 ⟨?_, ?_⟩
        · exact (associated_normalized _).irreducible
            (h.irreducible_divisor hplaces hassoc ⟨_, heq⟩ hunit hsize hlen)
        · exact ih ((Dvd.intro_left _ heq.symm).trans hq) (h.cofactor heq hplaces hassoc) hsize
            (by omega)
      · next hnone =>
        exact ih hq (h.succ (primeCount_ne_of_findDivisor?_eq_none hk h hle hp hq hnone))
          (Nat.succ_pos size) (by omega)
    · exact hwhole hq h (by omega)

/-! ## Evident irreducibility -/

theorem degree_toFinsupp (m : Monomial) : (m.toFinsupp.sum fun _ e => e) = m.degree := by
  have hsum : (m.toFinsupp.sum fun _ e => e) = ∑ w ∈ m.vars.toFinset, m.exponent w :=
    Finsupp.sum_of_support_subset _ Finsupp.support_onFinset_subset _ fun _ _ => rfl
  have hnodup : m.vars.Nodup := m.exponents.nodup_keys
  rw [hsum, List.sum_toFinset _ hnodup, Monomial.vars, FinSupp.keys,
    List.map_map, Monomial.degree, ← List.foldr_map, ← List.sum_eq_foldr]
  refine congrArg List.sum (List.map_congr_left fun w hw => ?_)
  exact (FinSupp.mem_entries_iff.1 hw).1

theorem totalDegree_toMv_le (p : Poly) : p.toMv.totalDegree ≤ p.totalDegree := by
  refine Finset.sup_le fun e he => ?_
  obtain ⟨m, rfl⟩ := Monomial.toFinsupp_surjective e
  rw [MvPolynomial.mem_support_iff, coeff_toMv] at he
  rw [degree_toFinsupp]
  exact foldr_max_le_iff (f := fun t : Monomial × ℚ => t.1.degree).1 le_rfl _
    (mem_terms_of_coeff_ne_zero he)

theorem isConstant_of_totalDegree_toMv {p : Poly} (h : p.toMv.totalDegree = 0) :
    p.isConstant = true := by
  rw [MvPolynomial.totalDegree_eq_zero_iff_eq_C] at h
  refine isConstant_iff.2 ⟨_, toMv_injective (h.trans (toMv_constant _).symm)⟩

/-- A factor free of a variable over which the content is constant is constant. -/
theorem isConstant_of_dvd_of_content {p d : Poly} {v : String} (hp : p ≠ 0)
    (hcontent : (p.content v).isConstant = true) (hd : d ∣ p) (hfree : d.degreeIn v = 0) :
    d.isConstant = true :=
  (isUnit_iff.1 (primitiveIn_of_content hp hcontent d hfree hd)).1

/-- A polynomial of degree one, or of degree one in a variable over which its content is
constant, has no proper factors. -/
theorem irreducible_of_isEvidentlyIrreducible {p : Poly} (hconst : p.isConstant = false)
    (h : p.isEvidentlyIrreducible = true) : Irreducible p := by
  have hp := ne_zero_of_not_isConstant hconst
  refine ⟨fun hu => ?_, fun a b hab => ?_⟩
  · rw [isUnit_iff, hconst] at hu
    exact Bool.false_ne_true hu.1
  · have hp' := hp
    rw [hab] at hp'
    have ha := left_ne_zero_of_mul hp'
    have hb := right_ne_zero_of_mul hp'
    have hconstant : a.isConstant = true ∨ b.isConstant = true := by
      rw [isEvidentlyIrreducible, Bool.or_eq_true, decide_eq_true_eq, List.any_eq_true] at h
      rcases h with h | ⟨v, -, h⟩
      · have hle := (totalDegree_toMv_le p).trans h
        rw [hab, ← mul_def, toMv_mul, MvPolynomial.totalDegree_mul_of_isDomain (toMv_ne_zero ha)
          (toMv_ne_zero hb)] at hle
        rcases Nat.eq_zero_or_pos a.toMv.totalDegree with h0 | hpos
        · exact Or.inl (isConstant_of_totalDegree_toMv h0)
        · exact Or.inr (isConstant_of_totalDegree_toMv (by omega))
      · rw [Bool.and_eq_true, beq_iff_eq] at h
        have hdegree := degreeIn_mul ha hb v
        rw [← hab, h.1] at hdegree
        rcases Nat.eq_zero_or_pos (a.degreeIn v) with h0 | hpos
        · exact Or.inl (isConstant_of_dvd_of_content hp h.2 ⟨b, hab⟩ h0)
        · refine Or.inr (isConstant_of_dvd_of_content hp h.2 ⟨a, hab.trans (mul_comm a b)⟩ ?_)
          omega
    exact hconstant.imp (fun h => isUnit_iff.2 ⟨h, ha⟩) fun h => isUnit_iff.2 ⟨h, hb⟩

/-- A factor that is read back alone is irreducible: its image is a single piece. -/
theorem irreducible_of_prime_hom {k : Kronecker} {p q : Poly} (hk : Kronecker.ofPoly? p = some k)
    (hq : Kronecker.Fits p q) (h : Prime (k.hom q)) : Irreducible q := by
  have hne {d : Poly} (hd : d ∣ q) : k.hom d ≠ 0 :=
    ne_zero_of_dvd_ne_zero h.ne_zero (map_dvd k.hom hd)
  have hq0 : q ≠ 0 := fun h0 => h.ne_zero (by rw [h0, map_zero])
  refine Recombination.irreducible_of_lt (φ := k.hom) (s := 1) ?_ h.ne_zero ?_ ?_
  · intro hu
    exact h.not_isUnit (hu.map k.hom)
  · intro d hd hu
    refine primeCount_pos (hne hd) fun himage => hu ?_
    exact Kronecker.isUnit_of_isUnit_hom hk
      (fun x => (Kronecker.fits_of_dvd hq0 hd x).trans (hq x)) himage
  · have hcount := primeCount_prod (l := [k.hom q]) (fun r hr => List.mem_singleton.1 hr ▸ h)
      (Associated.of_eq List.prod_singleton)
    rw [hcount]
    exact Nat.one_lt_two

/-! ## The factors of a polynomial -/

/-- The factors of a part are irreducible if it is evidently irreducible itself or the
polynomials that make up its image are factored into irreducible ones. -/
theorem irreducible_of_mem_irreducibleFactors {p f : Poly} (hp : p ≠ 0)
    (himage : p.isEvidentlyIrreducible = false → ∃ k, Kronecker.ofPoly? p = some k ∧
      ∀ f ∈ imageInputs (k.image p), ∀ g ∈ IntPoly.factorSquarefree f,
        Irreducible (IntPoly.toPolynomial g))
    (hf : f ∈ irreducibleFactors p) (hconst : f.isConstant = false) : Irreducible f := by
  rw [irreducibleFactors] at hf
  split at hf
  · next hevident =>
    have hassoc := associated_normalized p
    rw [List.mem_singleton.1 hf] at hconst ⊢
    refine hassoc.irreducible (irreducible_of_isEvidentlyIrreducible ?_ hevident)
    rw [Bool.eq_false_iff]
    intro hpconst
    have hunit := hassoc.isUnit (isUnit_iff.2 ⟨hpconst, hp⟩)
    rw [isUnit_iff, hconst] at hunit
    exact Bool.false_ne_true hunit.1
  · next hevident =>
    obtain ⟨k, hk, hinputs⟩ := himage (Bool.eq_false_iff.2 hevident)
    have hover := k.over_hom p
    have hp0 := Kronecker.hom_ne_zero_of_fits hk (fun _ => le_rfl) hp
    have hpieces := associated_imageFactors hover hp0
    rw [hk] at hf
    dsimp only at hf
    rw [Kronecker.image_eq_hom] at hf hinputs
    have hprime := prime_of_mem_imageFactors hover hp0 hinputs
    split at hf
    · obtain ⟨piece, hpiece, hf⟩ := List.mem_filterMap.1 hf
      obtain ⟨q, hq, rfl⟩ := Option.map_eq_some_iff.1 hf
      have hpieceover := hover.of_dvd hp0 ((List.dvd_prod hpiece).trans hpieces.dvd)
      obtain ⟨hhom, hfits⟩ := Kronecker.hom_of_preimage?_eq_some hk hpieceover hq
      refine (associated_normalized q).irreducible (irreducible_of_prime_hom hk hfits ?_)
      rw [hhom]
      exact hprime piece hpiece
    · refine irreducible_of_mem_recombineSteps hk hp dvd_rfl ⟨hprime, hpieces, ?_⟩ Nat.one_pos
        (by omega) f hf
      intro d hd hu
      refine primeCount_pos (ne_zero_of_dvd_ne_zero hp0 (map_dvd k.hom hd)) fun hunit => hu ?_
      exact Kronecker.isUnit_of_isUnit_hom hk (Kronecker.fits_of_dvd hp hd) hunit

/-- The squarefree parts that are factored through their images. -/
def imagedParts (p : Poly) : List Poly :=
  (p.parts.map Prod.fst).filter fun q => !q.isEvidentlyIrreducible

/-- The integer polynomials that are factored on the way. -/
def univariateInputs (p : Poly) : List IntPoly :=
  p.imagedParts.flatMap fun q =>
    match Kronecker.ofPoly? q with
    | none => []
    | some k => imageInputs (k.image q)

/-- If the integer polynomials met on the way are factored into irreducible ones, and no
image passes the limit, all factors listed are irreducible. -/
theorem irreducible_of_mem_factorize {p : Poly}
    (hspan : ∀ q ∈ p.imagedParts, q.degrees.divisorCount ≤ Kronecker.degreeLimit + 1)
    (hinputs : ∀ f ∈ p.univariateInputs, ∀ g ∈ IntPoly.factorSquarefree f,
      Irreducible (IntPoly.toPolynomial g)) :
    ∀ f ∈ p.factorize.factors, Irreducible f.1.toMv := by
  intro f hf
  refine (MulEquiv.irreducible_iff toMvEquiv.toMulEquiv).2 ?_
  by_cases hconst : p.isConstant = true
  · obtain ⟨c, rfl⟩ := isConstant_iff.1 hconst
    rw [factorize, constantValue?_eq_some_iff.2 rfl] at hf
    cases hf
  · have hp := ne_zero_of_not_isConstant (Bool.eq_false_iff.2 hconst)
    rw [factors_factorize_eq_mergeSort (Bool.eq_false_iff.2 hconst)] at hf
    rcases mem_foundFactors ((List.mergeSort_perm _ _).mem_iff.1 hf) with
      ⟨w, hw⟩ | ⟨part, hpart, hmem, hfconst⟩
    · rw [hw]
      exact (prime_var w).irreducible
    · refine irreducible_of_mem_irreducibleFactors (ne_zero_of_mem_parts hp hpart) ?_ hmem hfconst
      intro hevident
      have himaged : part.1 ∈ p.imagedParts :=
        List.mem_filter.2 ⟨List.mem_map_of_mem hpart, by rw [hevident]; rfl⟩
      have hk : Kronecker.ofPoly? part.1 = some ⟨Kronecker.placesFrom 1 part.1.degrees.powers,
          part.1.degrees.divisorCount⟩ := if_neg (not_lt.2 (hspan _ himaged))
      refine ⟨_, hk, fun f hf => hinputs f (List.mem_flatMap.2 ⟨part.1, himaged, ?_⟩)⟩
      rw [hk]
      exact hf

/-- The image `1 - t ^ 4` of `x ^ 2 - y ^ 2`, without its monomial content, does not pass the limit,
and it falls into three irreducible pieces. -/
theorem irreducible_inputs_squares :
    let p := ((var "x").pow 2).sub ((var "y").pow 2)
    (∀ q ∈ p.imagedParts, q.degrees.divisorCount ≤ Kronecker.degreeLimit + 1) ∧
      p.univariateInputs = [[-1, 0, 0, 0, 1]] ∧
      ∀ f ∈ p.univariateInputs, ∀ g ∈ IntPoly.factorSquarefree f,
        Irreducible (IntPoly.toPolynomial g) := by
  intro p
  have hinputs : p.univariateInputs = [[-1, 0, 0, 0, 1]] := by with_unfolding_all decide
  have hfactors : IntPoly.factorSquarefree [-1, 0, 0, 0, 1] = [[-1, 1], [1, 1], [1, 0, 1]] := by
    with_unfolding_all decide
  have hlinear (c : ℤ) : IntPoly.toPolynomial [c, 1] = Polynomial.X - Polynomial.C (-c) := by
    simp [IntPoly.toPolynomial, add_comm]
  have hsquare : IntPoly.toPolynomial [1, 0, 1] = Polynomial.X ^ 2 + 1 := by
    simp [IntPoly.toPolynomial, add_comm, sq]
  have hirreducible : Irreducible (Polynomial.X ^ 2 + 1 : Polynomial ℤ) := by
    have hmonic : (Polynomial.X ^ 2 + 1 : Polynomial ℤ).Monic := by monicity!
    have hdegree : (Polynomial.X ^ 2 + 1 : Polynomial ℤ).natDegree = 2 := by compute_degree!
    rw [hmonic.irreducible_iff_roots_eq_zero_of_degree_le_three hdegree.ge (by omega)]
    refine Multiset.eq_zero_of_forall_notMem fun x hx => ?_
    have hroot := (Polynomial.mem_roots hmonic.ne_zero).1 hx
    rw [Polynomial.IsRoot, Polynomial.eval_add, Polynomial.eval_pow, Polynomial.eval_X,
      Polynomial.eval_one] at hroot
    have hsq := sq_nonneg x
    omega
  refine ⟨by with_unfolding_all decide, hinputs, fun f hf g hg => ?_⟩
  rw [hinputs, List.mem_singleton] at hf
  rw [hf, hfactors] at hg
  simp only [List.mem_cons, List.not_mem_nil, or_false] at hg
  rcases hg with rfl | rfl | rfl
  · rw [hlinear]
    exact (Polynomial.prime_X_sub_C _).irreducible
  · rw [hlinear]
    exact (Polynomial.prime_X_sub_C _).irreducible
  · rwa [hsquare]

end Poly
end Meadow
