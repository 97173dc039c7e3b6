import Mathlib
import Meadow.Poly.Factor
import Meadow.Proofs.Poly.Squarefree
import Meadow.Proofs.Univariate.Factor

set_option autoImplicit false

/-!
# Images in one variable

The pieces that an image falls into multiply to it, up to a constant
(`Poly.associated_imageFactors`).  A polynomial in a single variable is its image with
that variable renamed, and renaming the pieces back gives its factors.
-/

namespace Meadow

/-- In the only variable, a monomial is a power. -/
theorem Monomial.eq_power {m : Monomial} {w : String} (h : ∀ x, x ≠ w → m.exponent x = 0) :
    m = .power w (m.exponent w) := by
  apply ext_exponent
  intro x
  rw [exponent_power]
  by_cases hx : w = x
  · rw [if_pos hx, hx]
  · rw [if_neg hx, h x (Ne.symm hx)]

namespace Poly

theorem exponent_eq_zero_of_over {vs : List String} {p : Poly} (hp : Over vs p)
    {t : Monomial × ℚ} (ht : t ∈ p.terms) {x : String} (hx : x ∉ vs) : t.1.exponent x = 0 := by
  have hne : p.coeff t.1 ≠ 0 := coeff_ne_zero_of_mem ht
  have hle := exponent_le_degreeIn hne x
  rw [hp x hx] at hle
  omega

theorem eq_power_of_mem_terms {w : String} {p : Poly} (hp : Over [w] p) {t : Monomial × ℚ}
    (ht : t ∈ p.terms) : t.1 = .power w (t.1.exponent w) :=
  Monomial.eq_power fun _ hx => exponent_eq_zero_of_over hp ht (by simpa using hx)

/-! ## Monomial contents -/

theorem exponent_monomialContent_le {p : Poly} {t : Monomial × ℚ} (ht : t ∈ p.terms)
    (x : String) : p.monomialContent.exponent x ≤ t.1.exponent x := by
  have main (us : List (Monomial × ℚ)) (m : Monomial) :
      (us.foldl (fun m u => m.gcd u.1) m).exponent x ≤ m.exponent x ∧
        ∀ u ∈ us, (us.foldl (fun m u => m.gcd u.1) m).exponent x ≤ u.1.exponent x := by
    induction us generalizing m with
    | nil => exact ⟨le_rfl, fun _ h => by cases h⟩
    | cons u us ih =>
      obtain ⟨hle, hrest⟩ := ih (m.gcd u.1)
      rw [Monomial.exponent_gcd] at hle
      rw [List.foldl_cons]
      refine ⟨hle.trans (min_le_left _ _), fun u' hu' => ?_⟩
      rcases List.mem_cons.1 hu' with rfl | hu'
      · exact hle.trans (min_le_right _ _)
      · exact hrest u' hu'
  rw [monomialContent]
  cases hterms : p.terms with
  | nil =>
    rw [hterms] at ht
    cases ht
  | cons u us =>
    rw [hterms] at ht
    obtain ⟨hle, hrest⟩ := main us u.1
    rcases List.mem_cons.1 ht with rfl | ht
    · exact hle
    · exact hrest t ht

/-- Dividing every term by a monomial divides the polynomial by it. -/
theorem monomial_mul_ofTerms {m : Monomial} {ts us : List (Monomial × ℚ)}
    (h : ts.mapM (fun t : Monomial × ℚ => (t.1.divide? m).map fun k => (k, t.2)) = some us) :
    monomial m 1 * ofTerms us = ofTerms ts := by
  induction ts generalizing us with
  | nil =>
    rw [List.mapM_nil] at h
    cases h
    exact mul_zero _
  | cons t ts ih =>
    rw [List.mapM_cons] at h
    obtain ⟨u, hu, h⟩ := Option.bind_eq_some_iff.1 h
    obtain ⟨us', hus, h⟩ := Option.bind_eq_some_iff.1 h
    cases h
    obtain ⟨k, hk, rfl⟩ := Option.map_eq_some_iff.1 hu
    have hrest := ih hus
    rw [ofTerms_eq_sum] at hrest ⊢
    rw [ofTerms_eq_sum] at hrest ⊢
    rw [List.map_cons, List.map_cons, List.sum_cons, List.sum_cons, mul_add, hrest,
      monomial_mul_monomial, one_mul, ← Monomial.divide?_eq_some_iff.1 hk]

/-- A monomial that divides all terms can be taken out. -/
theorem exists_divMonomial? {p : Poly} {m : Monomial}
    (hm : ∀ t ∈ p.terms, m.divides t.1 = true) :
    ∃ r, p.divMonomial? m = some r ∧ p = monomial m 1 * r := by
  have main (ts : List (Monomial × ℚ)) (hts : ∀ t ∈ ts, m.divides t.1 = true) :
      ∃ us, ts.mapM (fun t : Monomial × ℚ => (t.1.divide? m).map fun k => (k, t.2)) = some us := by
    induction ts with
    | nil => exact ⟨[], List.mapM_nil⟩
    | cons t ts ih =>
      obtain ⟨us, hus⟩ := ih fun u hu => hts u (List.mem_cons_of_mem t hu)
      rw [List.mapM_cons, Monomial.divide?, if_pos (hts t List.mem_cons_self), hus]
      exact ⟨_, rfl⟩
  obtain ⟨us, hus⟩ := main p.terms hm
  refine ⟨ofTerms us, by rw [divMonomial?, hus, Option.map_some], ?_⟩
  rw [monomial_mul_ofTerms hus, ofTerms_eq_sum, sum_terms]

/-- The monomial content can be taken out. -/
theorem exists_divMonomial?_monomialContent (p : Poly) :
    ∃ r, p.divMonomial? p.monomialContent = some r ∧ p = monomial p.monomialContent 1 * r :=
  exists_divMonomial? fun _ ht => Monomial.divides_iff.2 (exponent_monomialContent_le ht)

/-! ## Coefficients of images -/

/-- A polynomial in the image variable over the rationals, from integer coefficients. -/
noncomputable def imageHom : Polynomial ℤ →+* Poly :=
  Polynomial.eval₂RingHom (Int.castRingHom Poly) (var Kronecker.imageVar)

theorem intCast_eq_constant (n : ℤ) : (n : Poly) = constant n :=
  (map_intCast constantHom n).symm

theorem imageHom_toPolynomial_cons (c : ℤ) (cs : IntPoly) :
    imageHom (IntPoly.toPolynomial (c :: cs))
      = constant c + var Kronecker.imageVar * imageHom (IntPoly.toPolynomial cs) := by
  have hC : imageHom (Polynomial.C c) = constant c := by
    rw [← intCast_eq_constant]
    exact Polynomial.eval₂_C _ _
  have hX : imageHom Polynomial.X = var Kronecker.imageVar := Polynomial.eval₂_X _ _
  rw [IntPoly.toPolynomial_list_cons, map_add, map_mul, hC, hX]

theorem ofImageCoefficients_eq (cs : IntPoly) :
    ofImageCoefficients cs = imageHom (IntPoly.toPolynomial cs) := by
  have main (cs : IntPoly) (i : ℕ) :
      ((cs.zipIdx i).map fun c => monomial (.power Kronecker.imageVar c.2) (c.1 : ℚ)).sum
        = var Kronecker.imageVar ^ i * imageHom (IntPoly.toPolynomial cs) := by
    induction cs generalizing i with
    | nil => simp
    | cons c cs ih =>
      have hmonomial : monomial (.power Kronecker.imageVar i) (c : ℚ)
          = var Kronecker.imageVar ^ i * constant c := by
        rw [← monomial_power, constant, monomial_mul_monomial, one_mul]
        congr 1
        exact Monomial.ext_exponent fun x => by simp
      rw [List.zipIdx_cons, List.map_cons, List.sum_cons, ih, imageHom_toPolynomial_cons, hmonomial]
      ring
  have hmain := main cs 0
  rw [pow_zero, one_mul] at hmain
  rw [← hmain, ofImageCoefficients, ofTerms_eq_sum, List.map_map, List.map_reverse,
    List.sum_reverse]
  rfl

theorem imageHom_constant_mul (g : ℤ) (f : Polynomial ℤ) :
    imageHom (Polynomial.C g * f) = constant g * imageHom f := by
  rw [map_mul, ← intCast_eq_constant]
  congr 1
  exact Polynomial.eval₂_C _ _

/-- Terms with integer coefficients add up to integer coefficients. -/
theorem exists_int_coeff_ofTerms {ts : List (Monomial × ℚ)} (h : ∀ t ∈ ts, ∃ n : ℤ, t.2 = n)
    (m : Monomial) : ∃ n : ℤ, (ofTerms ts).coeff m = n := by
  induction ts with
  | nil => exact ⟨0, rfl⟩
  | cons t ts ih =>
    obtain ⟨n, hn⟩ := ih fun u hu => h u (List.mem_cons_of_mem t hu)
    obtain ⟨k, hk⟩ := h t List.mem_cons_self
    have hadd : (ofTerms (t :: ts)).coeff m
        = (monomial t.1 t.2).coeff m + (ofTerms ts).coeff m := by
      rw [← coeff_add, ofTerms_eq_sum, ofTerms_eq_sum]
      rfl
    rw [hadd, hn, coeff_monomial]
    split
    · exact ⟨k + n, by rw [hk, Int.cast_add]⟩
    · exact ⟨n, zero_add _⟩

/-- A polynomial in one variable has constant coefficients over it. -/
theorem coefficientIn_eq_constant {p : Poly} {w : String} (hp : Over [w] p) (i : ℕ) :
    p.coefficientIn w i = constant ((p.coefficientIn w i).coeff .one) :=
  eq_constant_of_degreeIn_eq_zero fun x => hp.coefficientIn_tail i x (by simp)

theorem ofImageCoefficients_imageCoefficients {p : Poly} (hp : Over [Kronecker.imageVar] p) :
    ofImageCoefficients (imageCoefficients p) = p.normalized := by
  have hover : Over [Kronecker.imageVar] p.normalized := by
    by_cases h0 : p = 0
    · rw [h0, normalized_zero]
      exact Over.zero
    · exact hp.of_dvd h0 (associated_normalized p).symm.dvd
  have hint (i : ℕ) : constant
      ((((p.normalized.coefficientIn Kronecker.imageVar i).coeff .one).num : ℤ) : ℚ)
        = p.normalized.coefficientIn Kronecker.imageVar i := by
    obtain ⟨n, hn⟩ : ∃ n : ℤ, (p.normalized.coefficientIn Kronecker.imageVar i).coeff .one = n := by
      refine exists_int_coeff_ofTerms (fun t ht => ?_) _
      obtain ⟨u, hu, rfl⟩ := List.mem_map.1 ht
      rw [← coeff_of_mem (List.mem_filter.1 hu).1]
      exact exists_int_coeff_normalized p u.1
    conv_rhs => rw [coefficientIn_eq_constant hover i, hn]
    rw [hn, Rat.num_intCast]
  have hsum (n : ℕ) (f : ℕ → ℤ) : imageHom (IntPoly.toPolynomial ((List.range n).map f))
      = ∑ i ∈ Finset.range n, constant (f i) * var Kronecker.imageVar ^ i := by
    induction n generalizing f with
    | zero => exact map_zero imageHom
    | succ n ih =>
      rw [List.range_succ_eq_map, List.map_cons, List.map_map, imageHom_toPolynomial_cons, ih,
        Finset.sum_range_succ', pow_zero, mul_one, add_comm, Finset.mul_sum]
      congr 1
      apply Finset.sum_congr rfl
      intro i _
      rw [Function.comp_apply, pow_succ]
      ring
  rw [ofImageCoefficients_eq, imageCoefficients, hsum]
  conv_rhs => rw [← eval_inVar Kronecker.imageVar p.normalized,
    Polynomial.eval_eq_sum_range, natDegree_inVar]
  apply Finset.sum_congr rfl
  intro i _
  rw [get_expandIn, hint, coeff_inVar]

/-! ## Pieces of images -/

theorem associated_prod_map {α M : Type} [CommMonoid M] {l : List α} {f g : α → M}
    (h : ∀ a ∈ l, Associated (f a) (g a)) : Associated (l.map f).prod (l.map g).prod := by
  induction l with
  | nil => rfl
  | cons a l ih =>
    rw [List.map_cons, List.prod_cons, List.map_cons, List.prod_cons]
    exact (h a List.mem_cons_self).mul_mul (ih fun b hb => h b (List.mem_cons_of_mem a hb))

theorem prod_flatMap {α M : Type} [CommMonoid M] (l : List α) (f : α → List M) :
    (l.flatMap f).prod = (l.map fun a => (f a).prod).prod := by
  induction l with
  | nil => rfl
  | cons a l ih => rw [List.flatMap_cons, List.prod_append, ih, List.map_cons, List.prod_cons]

theorem associated_factorSquarefree (f : IntPoly) :
    Associated ((IntPoly.factorSquarefree f).map ofImageCoefficients).prod
      (ofImageCoefficients f) := by
  obtain ⟨g, hg, heq⟩ := IntPoly.exists_toPolynomial_primitive (IntPoly.trim f)
  have himage : ofImageCoefficients f = constant g
      * ((IntPoly.factorSquarefree f).map ofImageCoefficients).prod := by
    rw [ofImageCoefficients_eq, ← IntPoly.toPolynomial_trim, heq, imageHom_constant_mul,
      ← IntPoly.prod_factorSquarefree, map_list_prod, List.map_map]
    congr 2
    exact List.map_congr_left fun cs _ => (ofImageCoefficients_eq cs).symm
  rw [himage]
  exact (associated_unit_mul_left _ _ (isUnit_constant (Int.cast_ne_zero.2 hg))).symm

theorem prod_flatMap_replicate (cs : List IntPoly) (k : ℕ) :
    (cs.flatMap fun c => List.replicate k (ofImageCoefficients c)).prod
      = (cs.map ofImageCoefficients).prod ^ k := by
  induction cs with
  | nil => simp
  | cons c cs ih =>
    rw [List.flatMap_cons, List.prod_append, List.prod_replicate, ih, List.map_cons,
      List.prod_cons, mul_pow]

theorem primitiveIn_of_over {p : Poly} {w : String} (hp : Over [w] p) (h0 : p ≠ 0) :
    PrimitiveIn w p := by
  intro d hd hdvd
  refine isUnit_iff.2 ⟨isConstant_iff_degreeIn.2 fun x => ?_, ne_zero_of_dvd_ne_zero h0 hdvd⟩
  exact ((hp.of_dvd h0 hdvd).cons_of_degreeIn_eq_zero hd) x (by simp)

/-- The pieces of an image multiply to it. -/
theorem associated_imageFactors {image : Poly} (hover : Over [Kronecker.imageVar] image)
    (h0 : image ≠ 0) : Associated (imageFactors image).prod image := by
  obtain ⟨rest, hrest, heq⟩ := exists_divMonomial?_monomialContent image
  have hdvd : rest ∣ image := ⟨_, heq.trans (mul_comm _ _)⟩
  have hrest0 := ne_zero_of_dvd_ne_zero h0 hdvd
  have hrestover := hover.of_dvd h0 hdvd
  have hprim := primitiveIn_of_over hrestover hrest0
  have hcontent : monomial image.monomialContent 1
      = var Kronecker.imageVar ^ image.monomialContent.exponent Kronecker.imageVar := by
    obtain ⟨m, c, hm⟩ := exists_leadingTerm? h0
    have hmem : (m, c) ∈ image.terms := List.mem_of_mem_head? hm
    rw [← monomial_power]
    congr 1
    apply Monomial.eq_power
    intro x hx
    have hle := exponent_monomialContent_le hmem x
    rw [exponent_eq_zero_of_over hover hmem (by simpa using hx)] at hle
    omega
  have hparts : Associated (((squarefreeParts rest Kronecker.imageVar).flatMap fun part =>
      (IntPoly.factorSquarefree (imageCoefficients part.1)).flatMap fun cs =>
        List.replicate part.2 (ofImageCoefficients cs)).prod) rest := by
    rw [prod_flatMap]
    refine (associated_prod_map fun part hpart => ?_).trans (associated_squarefreeParts hprim)
    rw [prod_flatMap_replicate]
    have hpartover := hrestover.of_dvd hrest0 (dvd_of_mem_squarefreeParts hprim hpart)
    have hfactor := associated_factorSquarefree (imageCoefficients part.1)
    rw [ofImageCoefficients_imageCoefficients hpartover] at hfactor
    exact (hfactor.trans (associated_normalized part.1).symm).pow_pow
  rw [imageFactors, hrest, Option.getD_some, List.prod_append, List.prod_replicate, ← hcontent]
  conv_rhs => rw [heq]
  exact (Associated.refl _).mul_mul hparts

/-! ## Renaming the only variable -/

/-- Every variable renamed to one. -/
noncomputable def collapse (w : String) : Poly →+* Poly :=
  (MvPolynomial.eval₂Hom constantHom fun _ => var w).comp toMvHom

theorem collapse_monomial_power (w x : String) (e : ℕ) (c : ℚ) :
    collapse w (monomial (.power x e) c) = monomial (.power w e) c := by
  change MvPolynomial.eval₂Hom _ _ (monomial (.power x e) c).toMv = _
  rw [toMv_monomial, Monomial.toFinsupp_power, MvPolynomial.eval₂Hom_monomial,
    Finsupp.prod_single_index (h := fun _ k => var w ^ k) (pow_zero _), ← monomial_power]
  refine (monomial_mul_monomial _ _ _ _).trans ?_
  rw [mul_one]
  congr 1

/-- What renaming makes of a polynomial in one variable. -/
theorem collapse_eq_sum {p : Poly} {x : String} (w : String) (hp : Over [x] p) :
    collapse w p = (p.terms.map fun t => monomial (.power w (t.1.exponent x)) t.2).sum := by
  conv_lhs => rw [← sum_terms p, map_list_sum, List.map_map]
  refine congrArg List.sum (List.map_congr_left fun t ht => ?_)
  rw [Function.comp_apply]
  conv_lhs => rw [eq_power_of_mem_terms hp ht]
  exact collapse_monomial_power w x _ _

theorem collapse_collapse {p : Poly} {x : String} (w : String) (hp : Over [x] p) :
    collapse x (collapse w p) = p := by
  have hself : collapse x p = p := by
    conv_rhs => rw [← sum_terms p]
    rw [collapse_eq_sum x hp]
    refine congrArg List.sum (List.map_congr_left fun t ht => ?_)
    rw [← eq_power_of_mem_terms hp ht]
  rw [collapse_eq_sum w hp, map_list_sum, List.map_map]
  conv_rhs => rw [← hself, collapse_eq_sum x hp]
  exact congrArg List.sum (List.map_congr_left fun t _ => collapse_monomial_power x w _ _)

/-- In one variable, the image is the polynomial with the variable renamed, and what
divides the image is read back by renaming. -/
theorem exists_collapse_of_ofPoly? {k : Kronecker} {p : Poly} (hk : Kronecker.ofPoly? p = some k)
    (hone : k.places.length = 1) : ∃ w, Over [w] p ∧ k.image p = collapse Kronecker.imageVar p ∧
      ∀ q, Over [Kronecker.imageVar] q → q.degreeIn Kronecker.imageVar ≤ p.degreeIn w →
        k.preimage? q = some (collapse w q) := by
  unfold Kronecker.ofPoly? at hk
  dsimp only at hk
  split at hk
  · cases hk
  · cases hk
    obtain ⟨w, d, hwd⟩ : ∃ w d, p.degrees.powers = [(w, d)] := by
      match hpowers : p.degrees.powers with
      | [] => rw [hpowers] at hone; cases hone
      | [(w, d)] => exact ⟨w, d, rfl⟩
      | _ :: _ :: _ => rw [hpowers] at hone; cases hone
    have hd : p.degreeIn w = d := by
      rw [← exponent_degrees]
      exact (FinSupp.mem_entries_iff.1 (by
        rw [Monomial.powers] at hwd
        rw [hwd]
        exact List.mem_singleton_self _)).1
    have hover : Over [w] p := fun x hx => by
      have hvars : p.vars = [w] := by
        rw [vars, Monomial.vars, FinSupp.keys]
        rw [Monomial.powers] at hwd
        rw [hwd]
        rfl
      exact over_vars p x (by rwa [hvars])
    refine ⟨w, hover, ?_, fun q hq hdeg => ?_⟩
    · rw [collapse_eq_sum _ hover, Kronecker.image, ofTerms_eq_sum, List.map_map]
      refine congrArg List.sum (List.map_congr_left fun t _ => ?_)
      simp [Kronecker.weigh, hwd, Kronecker.placesFrom]
    · have hexp (t : Monomial × ℚ) (ht : t ∈ q.terms) :
          t.1.exponent Kronecker.imageVar < d + 1 := by
        have hne : q.coeff t.1 ≠ 0 := coeff_ne_zero_of_mem ht
        have hle := exponent_le_degreeIn hne Kronecker.imageVar
        omega
      rw [Kronecker.preimage?, if_pos, collapse_eq_sum _ hq, ofTerms_eq_sum, List.map_map]
      · refine congrArg some (congrArg List.sum (List.map_congr_left fun t ht => ?_))
        have hlt := hexp t ht
        rw [Function.comp_apply]
        congr 1
        apply Monomial.ext_exponent
        intro x
        simp [Kronecker.unweigh, hwd, Kronecker.placesFrom, Nat.mod_eq_of_lt hlt]
      · rw [List.all_eq_true]
        intro t ht
        have hlt := hexp t ht
        simpa [Monomial.divisorCount, hwd] using hlt

theorem over_collapse {p : Poly} {x : String} (w : String) (hp : Over [x] p) :
    Over [w] (collapse w p) := by
  intro y hy
  rw [collapse_eq_sum w hp]
  refine Nat.le_zero.1 (degreeIn_sum_le fun q hq => ?_)
  obtain ⟨t, -, rfl⟩ := List.mem_map.1 hq
  refine (degreeIn_monomial_le _ _ y).trans ?_
  rw [Monomial.exponent_power, if_neg fun h => hy (by simp [h])]

theorem degreeIn_collapse_le {p : Poly} {x : String} (w : String) (hp : Over [x] p) :
    (collapse w p).degreeIn w ≤ p.degreeIn x := by
  rw [collapse_eq_sum w hp]
  apply degreeIn_sum_le
  intro q hq
  obtain ⟨t, ht, rfl⟩ := List.mem_map.1 hq
  have hne : p.coeff t.1 ≠ 0 := coeff_ne_zero_of_mem ht
  refine (degreeIn_monomial_le _ _ w).trans ?_
  rw [Monomial.exponent_power, if_pos rfl]
  exact exponent_le_degreeIn hne x

/-- In one variable, the pieces read back multiply to the polynomial. -/
theorem associated_preimages {k : Kronecker} {p : Poly} (hk : Kronecker.ofPoly? p = some k)
    (hone : k.places.length = 1) (h0 : p ≠ 0) :
    Associated ((imageFactors (k.image p)).filterMap fun piece =>
      (k.preimage? piece).map normalized).prod p := by
  obtain ⟨w, hover, himage, hpreimage⟩ := exists_collapse_of_ofPoly? hk hone
  have hback := collapse_collapse Kronecker.imageVar hover
  have hdeg := degreeIn_collapse_le Kronecker.imageVar hover
  have hiover := over_collapse Kronecker.imageVar hover
  rw [← himage] at hback hdeg hiover
  have hi0 : k.image p ≠ 0 := fun h => h0 (by rw [← hback, h, map_zero])
  have hpieces := associated_imageFactors hiover hi0
  have hread (piece : Poly) (h : piece ∈ imageFactors (k.image p)) :
      (k.preimage? piece).map normalized = some (collapse w piece).normalized := by
    have hdvd := (List.dvd_prod h).trans hpieces.dvd
    rw [hpreimage piece (hiover.of_dvd hi0 hdvd) ((degreeIn_le_of_dvd hi0 hdvd _).trans hdeg),
      Option.map_some]
  have hmap := hpieces.map (collapse w)
  rw [hback, map_list_prod] at hmap
  rw [List.filterMap_congr hread, List.filterMap_eq_map']
  refine Associated.trans ?_ hmap
  exact associated_prod_map fun piece _ => (associated_normalized _).symm

end Poly
end Meadow
