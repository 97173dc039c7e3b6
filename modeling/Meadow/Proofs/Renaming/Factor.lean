import Mathlib
import Meadow.Proofs.Poly.CanonicalGcd
import Meadow.Proofs.Renaming.Poly

set_option autoImplicit false

/-!
# Factorization of a renamed polynomial

Let a renaming keep the order of the names.  What divides a renamed polynomial is a renamed
polynomial itself (`Poly.exists_rename_of_dvd`), so canonical greatest common divisors, being
unique, are renamed with what they divide (`Poly.gcd_rename`), whatever variable they are
computed over first.  Kronecker's substitution gives the places of the renamed variables the
same weights, so that the image is the same polynomial (`Kronecker.image_rename`): the image
variable has its fixed name on both sides, and is no variable of either polynomial.  Hence the
search for factors takes the same steps (`Poly.factorize_rename`).
-/

namespace Meadow

variable {σ : String → String}

namespace Poly

variable {p : Poly}

/-! ## Divisors -/

/-- What divides a renamed polynomial is renamed itself. -/
theorem exists_rename_of_dvd (hσ : StrictMono σ) (hp : p ≠ 0) {d : Poly}
    (h : d ∣ p.rename σ) : ∃ e : Poly, d = e.rename σ := by
  have hp' : p.rename σ ≠ 0 := fun h0 => hp (rename_injective hσ.injective h0)
  refine ⟨d.rename (Function.invFun σ), ?_⟩
  rw [rename_rename]
  refine (rename_id d).symm.trans (rename_congr fun x hx => (Function.invFun_eq ?_).symm)
  -- a variable with another name has no degree in the divisor
  by_contra hne
  push Not at hne
  have hfree : d.degreeIn x = 0 :=
    degreeIn_eq_zero_of_dvd hp' (degreeIn_rename_of_notMem hσ p hne) h
  rw [mem_vars_iff, hfree] at hx
  exact absurd hx (lt_irrefl 0)

theorem rename_dvd_rename_iff (hσ : StrictMono σ) {q : Poly} :
    p.rename σ ∣ q.rename σ ↔ p ∣ q := by
  have hback (r : Poly) : (r.rename σ).rename (Function.invFun σ) = r := by
    rw [rename_rename, Function.invFun_comp hσ.injective, rename_id]
  constructor
  · intro h
    rw [← hback p, ← hback q]
    exact map_dvd (renameHom (Function.invFun σ)) h
  · exact map_dvd (renameHom σ)

/-- A greatest common divisor of a family is renamed with the family. -/
theorem dvd_rename_iff (hσ : StrictMono σ) {ι : Type} {g : Poly} {q : ι → Poly}
    (h : ∀ d, d ∣ g ↔ ∀ i, d ∣ q i) (d : Poly) :
    d ∣ g.rename σ ↔ ∀ i, d ∣ (q i).rename σ := by
  constructor
  · intro hd i
    exact hd.trans ((rename_dvd_rename_iff hσ).2 ((h g).1 dvd_rfl i))
  · intro hd
    by_cases hzero : ∀ i, q i = 0
    · have hg : (0 : Poly) ∣ g := (h 0).2 fun i => (hzero i).symm.dvd
      rw [zero_dvd_iff.1 hg]
      exact dvd_zero d
    · push Not at hzero
      obtain ⟨i, hi⟩ := hzero
      obtain ⟨e, rfl⟩ := exists_rename_of_dvd hσ hi (hd i)
      exact (rename_dvd_rename_iff hσ).2 ((h e).2 fun j => (rename_dvd_rename_iff hσ).1 (hd j))

variable (hσ : StrictMono σ)

include hσ

theorem gcd_rename (a b : Poly) : gcd (a.rename σ) (b.rename σ) = (gcd a b).rename σ := by
  have hgcd : IsGcd ((gcd a b).rename σ) (a.rename σ) (b.rename σ) := by
    intro d
    have hboth := dvd_rename_iff hσ (g := gcd a b) (q := fun second : Bool => cond second b a)
      (fun e => by simpa using isGcd_gcd a b e) d
    simpa using hboth
  refine (IsGcd.eq_gcd hgcd ?_).symm
  rw [normalized_rename hσ, normalized_gcd]

theorem content_rename (p : Poly) (v : String) :
    (p.rename σ).content (σ v) = (p.content v).rename σ := by
  have hcontent (q : Poly) (w : String) (d : Poly) :
      d ∣ q.content w ↔ ∀ i, d ∣ q.coefficientIn w i :=
    dvd_contentBy_iff (findsGcd_gcd q.vars)
      (fun x hx => over_vars q x (List.not_mem_of_not_mem_cons hx)) d
  have hdvd (d : Poly) : d ∣ (p.rename σ).content (σ v) ↔ d ∣ (p.content v).rename σ := by
    rw [hcontent, dvd_rename_iff hσ (hcontent p v)]
    simp only [coefficientIn_rename hσ]
  have hassoc := associated_of_dvd_dvd ((hdvd _).1 dvd_rfl) ((hdvd _).2 dvd_rfl)
  rw [← normalized_content, normalized_eq_of_associated hassoc, normalized_rename hσ,
    normalized_content]

theorem divExact?_rename (a b : Poly) :
    (a.rename σ).divExact? (b.rename σ) = (a.divExact? b).map (rename σ) := by
  have hzero : b.rename σ = 0 ↔ b = 0 := (rename_injective hσ.injective).eq_iff (b := 0)
  cases h : a.divExact? b with
  | some q =>
    obtain ⟨hb, hq⟩ := divExact?_eq_some_iff.1 h
    refine divExact?_eq_some_iff.2 ⟨hzero.not.2 hb, ?_⟩
    rw [hq, rename_mul]
  | none =>
    refine divExact?_eq_none_iff.2 ?_
    rw [hzero, rename_dvd_rename_iff hσ]
    exact divExact?_eq_none_iff.1 h

theorem splitContent_rename (p : Poly) (v : String) :
    (p.rename σ).splitContent (σ v)
      = ((p.splitContent v).1.rename σ, (p.splitContent v).2.rename σ) := by
  have hcontent : contentBy gcd (p.rename σ) (σ v) = (contentBy gcd p v).rename σ :=
    content_rename hσ p v
  rw [splitContent, splitContent, splitContentBy, splitContentBy, hcontent, isZero_rename hσ,
    isOne_rename hσ, divExact?_rename hσ]
  split
  · rfl
  · cases p.divExact? (contentBy gcd p v) <;> rfl

theorem monomialFree_rename (p : Poly) :
    (p.rename σ).monomialFree = p.monomialFree.rename σ := by
  have hleft := eq_monomialContent_mul (p.rename σ)
  have hright := congrArg (rename σ) (eq_monomialContent_mul p)
  rw [rename_mul, rename_monomial, ← monomialContent_rename hσ] at hright
  refine mul_left_cancel₀ (fun h0 => ?_) (hleft.symm.trans hright)
  have hcoeff : coeff _ (p.rename σ).monomialContent = 0 := congrArg (coeff · _) h0
  rw [coeff_monomial, if_pos rfl] at hcoeff
  exact one_ne_zero hcoeff

/-! ## Squarefree parts -/

theorem squarefreeRounds_rename (v : String) (rounds k : ℕ) (b d : Poly) :
    squarefreeRounds (σ v) rounds k (b.rename σ) (d.rename σ)
      = (squarefreeRounds v rounds k b d).map fun part => (part.1.rename σ, part.2) := by
  induction rounds generalizing k b d with
  | zero =>
    rw [squarefreeRounds, squarefreeRounds, degreeIn_rename hσ]
    split <;> rfl
  | succ rounds ih =>
    have hpart (a : Poly) : (if a.degreeIn v = 0 then [] else [(a.rename σ, k)])
        = (if a.degreeIn v = 0 then [] else [(a, k)]).map
          fun part => (part.1.rename σ, part.2) := by
      split <;> rfl
    rw [squarefreeRounds, squarefreeRounds, degreeIn_rename hσ, gcd_rename hσ]
    dsimp only
    split
    · rfl
    · rw [degreeIn_rename hσ, divExact?_rename hσ, divExact?_rename hσ, hpart]
      cases b.divExact? (gcd b d) with
      | none => simp
      | some b' =>
        cases d.divExact? (gcd b d) with
        | none => simp
        | some c' =>
          simp only [Option.map_some, List.map_append]
          rw [derivative_rename hσ, sub_def, ← rename_sub, ih, sub_def]

theorem squarefreeParts_rename (p : Poly) (v : String) :
    squarefreeParts (p.rename σ) (σ v)
      = (squarefreeParts p v).map fun part => (part.1.rename σ, part.2) := by
  rw [squarefreeParts, squarefreeParts, derivative_rename hσ, gcd_rename hσ,
    divExact?_rename hσ, divExact?_rename hσ, degreeIn_rename hσ]
  cases p.divExact? (gcd p (p.derivative v)) with
  | none => rfl
  | some b =>
    cases (p.derivative v).divExact? (gcd p (p.derivative v)) with
    | none => rfl
    | some c =>
      simp only [Option.map_some]
      rw [derivative_rename hσ, sub_def, ← rename_sub, squarefreeRounds_rename hσ, sub_def]

theorem isEvidentlyIrreducible_rename (p : Poly) :
    (p.rename σ).isEvidentlyIrreducible = p.isEvidentlyIrreducible := by
  rw [isEvidentlyIrreducible, isEvidentlyIrreducible, totalDegree_rename hσ, vars_rename hσ,
    List.any_map]
  congr 2
  funext v
  rw [Function.comp_apply, degreeIn_rename hσ, content_rename hσ, isConstant_rename hσ]

end Poly

/-! ## Kronecker's substitution -/

namespace Kronecker

/-- The substitution for the renamed variables. -/
def rename (σ : String → String) (k : Kronecker) : Kronecker :=
  ⟨k.places.map fun place => { place with var := σ place.var }, k.span⟩

theorem placesFrom_map (σ : String → String) (weight : ℕ) (degrees : List (String × ℕ)) :
    placesFrom weight (degrees.map fun d => (σ d.1, d.2))
      = (placesFrom weight degrees).map fun place => { place with var := σ place.var } := by
  induction degrees generalizing weight with
  | nil => rfl
  | cons d degrees ih => exact congrArg (_ :: ·) (ih _)

theorem unweigh_rename (σ : String → String) (k : Kronecker) (e : ℕ) :
    (k.rename σ).unweigh e = (k.unweigh e).rename σ := by
  rw [unweigh, unweigh, rename, List.foldr_map]
  induction k.places with
  | nil => rfl
  | cons place places ih =>
    rw [List.foldr_cons, List.foldr_cons, ih, Monomial.rename_mul, Monomial.rename_power]

/-- What is read back from one image are renamed polynomials. -/
theorem preimage?_rename (σ : String → String) (k : Kronecker) (g : Poly) :
    (k.rename σ).preimage? g = (k.preimage? g).map (Poly.rename σ) := by
  rw [preimage?, preimage?, apply_ite (Option.map (Poly.rename σ)), Option.map_some,
    Poly.rename_ofTerms, List.map_map]
  simp only [unweigh_rename]
  rfl

variable (hσ : StrictMono σ)

include hσ

theorem ofPoly?_rename (p : Poly) : ofPoly? (p.rename σ) = (ofPoly? p).map (rename σ) := by
  rw [ofPoly?, ofPoly?, Poly.degrees_rename hσ, Monomial.divisorCount_rename hσ,
    Monomial.powers_rename hσ, placesFrom_map, apply_ite (Option.map (rename σ))]
  rfl

theorem weigh_rename (k : Kronecker) (m : Monomial) :
    (k.rename σ).weigh (m.rename σ) = k.weigh m := by
  rw [weigh, weigh, rename, List.foldr_map]
  simp only [Monomial.exponent_rename hσ]

/-- The image does not depend on the names. -/
theorem image_rename (k : Kronecker) (p : Poly) :
    (k.rename σ).image (p.rename σ) = k.image p := by
  rw [image, image, Poly.terms_rename hσ, List.map_map]
  refine congrArg Poly.ofTerms (List.map_congr_left fun t _ => ?_)
  rw [Function.comp_apply, weigh_rename hσ]

end Kronecker

namespace Poly

/-! ## Irreducible factors -/

/-- A divisor found, with its variables renamed. -/
def Found.rename (σ : String → String) (found : Found) : Found :=
  ⟨found.divisor.rename σ, found.cofactor.rename σ, found.places⟩

variable (hσ : StrictMono σ)

include hσ

theorem findDivisor?_rename (k : Kronecker) (p : Poly) (pieces : List Poly) (size : ℕ) :
    findDivisor? (k.rename σ) (p.rename σ) pieces size
      = (findDivisor? k p pieces size).map (Found.rename σ) := by
  rw [findDivisor?, findDivisor?, ← Subset.search?_map]
  congr 1
  funext places
  rw [Kronecker.preimage?_rename]
  cases k.preimage? ((Subset.select pieces places).foldl mul one) with
  | none => rfl
  | some c =>
    simp only [Option.map_some]
    rw [isConstant_rename hσ, divExact?_rename hσ]
    split
    · rfl
    · cases p.divExact? c <;> rfl

theorem recombineSteps_rename (k : Kronecker) (steps size : ℕ) (p : Poly) (pieces : List Poly) :
    recombineSteps (k.rename σ) steps size (p.rename σ) pieces
      = (recombineSteps k steps size p pieces).map (rename σ) := by
  have hwhole (p : Poly) : (if (p.rename σ).isConstant then [] else [(p.rename σ).normalized])
      = (if p.isConstant then [] else [p.normalized]).map (rename σ) := by
    rw [isConstant_rename hσ, normalized_rename hσ]
    split <;> rfl
  induction steps generalizing size p pieces with
  | zero => exact hwhole p
  | succ steps ih =>
    rw [recombineSteps, recombineSteps, findDivisor?_rename hσ]
    split
    · cases findDivisor? k p pieces size with
      | none => exact ih (size + 1) p pieces
      | some found =>
        simp only [Option.map_some, List.map_cons, Found.rename]
        rw [normalized_rename hσ, ih]
    · exact hwhole p

theorem irreducibleFactors_rename (p : Poly) :
    irreducibleFactors (p.rename σ) = (irreducibleFactors p).map (rename σ) := by
  rw [irreducibleFactors, irreducibleFactors, isEvidentlyIrreducible_rename hσ,
    normalized_rename hσ, Kronecker.ofPoly?_rename hσ]
  split
  · rfl
  · cases Kronecker.ofPoly? p with
    | none => rfl
    | some k =>
      have hlength : (k.rename σ).places.length = k.places.length := List.length_map _
      simp only [Option.map_some]
      rw [Kronecker.image_rename hσ, hlength]
      split
      · rw [List.map_filterMap]
        refine List.filterMap_congr fun piece _ => ?_
        rw [Kronecker.preimage?_rename, Option.map_map, Option.map_map]
        exact congrArg (Option.map · _) (funext fun q => normalized_rename hσ q)
      · exact recombineSteps_rename hσ k _ 1 p _

/-! ## All factors -/

theorem squarefreePartsOver_rename (vs : List String) (p : Poly) :
    squarefreePartsOver (vs.map σ) (p.rename σ)
      = (squarefreePartsOver vs p).map fun part => (part.1.rename σ, part.2) := by
  induction vs generalizing p with
  | nil => rfl
  | cons v vs ih =>
    rw [List.map_cons, squarefreePartsOver, squarefreePartsOver, isConstant_rename hσ,
      degreeIn_rename hσ, splitContent_rename hσ]
    split
    · rfl
    · split
      · exact ih p
      · dsimp only
        rw [ih, squarefreeParts_rename hσ, List.map_append]

theorem factorsOfPart_rename (part : Poly × ℕ) :
    factorsOfPart (part.1.rename σ, part.2)
      = (factorsOfPart part).map fun f => (f.1.rename σ, f.2) := by
  have hconstant (f : Poly) : (!(f.rename σ).isConstant) = !f.isConstant := by
    rw [isConstant_rename hσ]
  rw [factorsOfPart, factorsOfPart, irreducibleFactors_rename hσ,
    filter_map_of_eq (P := fun f : Poly => !f.isConstant) hconstant, List.map_map, List.map_map]
  rfl

theorem collectFactors_rename (vs : List String) (p : Poly) :
    collectFactors (vs.map σ) (p.rename σ)
      = (collectFactors vs p).map fun f => (f.1.rename σ, f.2) := by
  rw [collectFactors_eq, collectFactors_eq, squarefreePartsOver_rename hσ, List.flatMap_map,
    List.map_flatMap]
  exact congrArg (List.flatMap · _) (funext fun part => factorsOfPart_rename hσ part)

theorem foundFactors_rename (p : Poly) :
    (p.rename σ).foundFactors = p.foundFactors.map fun f => (f.1.rename σ, f.2) := by
  have hrest := collectFactors_rename hσ p.monomialFree.vars p.monomialFree
  rw [← vars_rename hσ, ← monomialFree_rename hσ] at hrest
  rw [foundFactors, foundFactors, List.map_append]
  refine congrArg₂ (· ++ ·) ?_ hrest
  rw [monomialContent_rename hσ, Monomial.powers_rename hσ, List.map_map, List.map_map]
  exact List.map_congr_left fun w _ => congrArg (·, w.2) (rename_var σ w.1).symm

end Poly

namespace Factorization

/-- The factorization with its variables renamed. -/
def rename (σ : String → String) (f : Factorization) : Factorization :=
  ⟨f.constant, f.factors.map fun g => (g.1.rename σ, g.2)⟩

theorem product_rename (σ : String → String) (fs : List (Poly × ℕ)) :
    product (fs.map fun f => (f.1.rename σ, f.2)) = (product fs).rename σ := by
  have hprod := map_list_prod (Poly.renameHom σ) (fs.map fun f => f.1 ^ f.2)
  rw [product_eq_prod, product_eq_prod, List.map_map]
  refine Eq.trans ?_ hprod.symm
  rw [List.map_map]
  refine congrArg List.prod (List.map_congr_left fun f _ => ?_)
  exact (map_pow (Poly.renameHom σ) f.1 f.2).symm

theorem mergeEqual_rename (hσ : Function.Injective σ) (fs : List (Poly × ℕ)) :
    mergeEqual (fs.map fun f => (f.1.rename σ, f.2))
      = (mergeEqual fs).map fun f => (f.1.rename σ, f.2) := by
  induction fs with
  | nil => rfl
  | cons f fs ih =>
    rw [List.map_cons, mergeEqual, mergeEqual, ih]
    cases mergeEqual fs with
    | nil => rfl
    | cons g gs =>
      simp only [List.map_cons, (Poly.rename_injective hσ).eq_iff]
      split <;> rfl

theorem cmp_rename (hσ : StrictMono σ) (f g : Poly) :
    cmp (f.rename σ) (g.rename σ) = cmp f g := by
  rw [cmp, cmp, Poly.totalDegree_rename hσ, Poly.totalDegree_rename hσ, Poly.size_rename hσ,
    Poly.size_rename hσ, Poly.cmp_rename hσ]

end Factorization

namespace Poly

variable (hσ : StrictMono σ)

include hσ

/-- A renamed polynomial has the renamed factors, in the same order and as often. -/
theorem factorize_rename (p : Poly) : (p.rename σ).factorize = p.factorize.rename σ := by
  cases hconstant : p.constantValue? with
  | some c =>
    rw [factorize, factorize, constantValue?_rename hσ, hconstant]
    rfl
  | none =>
    have hp := constantValue?_eq_none_iff.1 hconstant
    have hp' : (p.rename σ).isConstant = false := by rw [isConstant_rename hσ, hp]
    have hfactors : (p.rename σ).factorize.factors
        = p.factorize.factors.map fun f => (f.1.rename σ, f.2) := by
      rw [factors_factorize hp, factors_factorize hp', foundFactors_rename hσ,
        ← Factorization.mergeEqual_rename hσ.injective]
      refine congrArg Factorization.mergeEqual (List.map_mergeSort fun f _ g _ => ?_).symm
      rw [Factorization.cmp_rename hσ]
    have hconst {q : Poly} (hq : q.constantValue? = none) : q.factorize.constant
        = q.leadingCoeff / (Factorization.product q.factorize.factors).leadingCoeff := by
      rw [factorize, hq]
    have hconst' := hconst (q := p.rename σ) (by rw [constantValue?_rename hσ, hconstant])
    rw [hfactors, Factorization.product_rename, leadingCoeff_rename hσ, leadingCoeff_rename hσ,
      ← hconst hconstant] at hconst'
    exact congrArg₂ Factorization.mk hconst' hfactors

theorem factors_rename (p : Poly) : (p.rename σ).factors = p.factors.map (rename σ) := by
  rw [factors, factors, isConstant_rename hσ, factorize_rename hσ, Factorization.rename,
    apply_ite (List.map (rename σ)), List.map_map, List.map_map]
  rfl

theorem radical_rename (p : Poly) : (p.rename σ).radical = p.radical.rename σ := by
  rw [radical, radical, isConstant_rename hσ, factors_rename hσ, foldl_mul_eq_prod,
    foldl_mul_eq_prod, apply_ite (rename σ)]
  exact congrArg (ite _ _) (map_list_prod (renameHom σ) p.factors).symm

end Poly
end Meadow
