import Mathlib
import Meadow.Proofs.Poly.Kronecker
import Meadow.Proofs.Poly.Value

set_option autoImplicit false

/-!
# Factorization

The powers of the factors multiply to the polynomial, up to the constant that the
factorization gives back (`Poly.expand_factorize_eq`).  So a polynomial vanishes where one of its
factors does (`Poly.value_eq_zero_iff_exists_factor`), and its radical vanishes exactly
where it does itself (`Poly.value_radical_eq_zero_iff`).
-/

namespace Meadow

/-! ## Products of powers -/

namespace Factorization

theorem foldl_mul_pow (fs : List (Poly × ℕ)) (start : Poly) :
    fs.foldl (fun acc f => acc.mul (f.1.pow f.2)) start
      = start * (fs.map fun f => f.1 ^ f.2).prod := by
  induction fs generalizing start with
  | nil => rw [List.foldl_nil, List.map_nil, List.prod_nil, mul_one]
  | cons f fs ih =>
    rw [List.foldl_cons, ih, List.map_cons, List.prod_cons, ← mul_assoc]
    rfl

theorem product_eq_prod (fs : List (Poly × ℕ)) :
    product fs = (fs.map fun f => f.1 ^ f.2).prod :=
  (foldl_mul_pow fs 1).trans (one_mul _)

theorem prod_mergeEqual (fs : List (Poly × ℕ)) :
    ((mergeEqual fs).map fun f => f.1 ^ f.2).prod = (fs.map fun f => f.1 ^ f.2).prod := by
  induction fs with
  | nil => rfl
  | cons f fs ih =>
    rw [List.map_cons, List.prod_cons, ← ih, mergeEqual]
    cases hrest : mergeEqual fs with
    | nil => rfl
    | cons g gs =>
      dsimp only
      split
      · next h =>
        rw [List.map_cons, List.map_cons, List.prod_cons, List.prod_cons, h, pow_add, mul_assoc]
      · rfl

theorem forall_mem_mergeEqual {P : Poly × ℕ → Prop} {fs : List (Poly × ℕ)} (h : ∀ f ∈ fs, P f)
    (hadd : ∀ f k l, P (f, k) → P (f, l) → P (f, k + l)) : ∀ f ∈ mergeEqual fs, P f := by
  induction fs with
  | nil => exact fun _ hf => by cases hf
  | cons f fs ih =>
    have hrest := ih fun g hg => h g (List.mem_cons_of_mem f hg)
    have hf := h f List.mem_cons_self
    rw [mergeEqual]
    cases hmerged : mergeEqual fs with
    | nil =>
      intro g hg
      rwa [List.mem_singleton.1 hg]
    | cons g gs =>
      rw [hmerged] at hrest
      dsimp only
      split
      · next heq =>
        refine List.forall_mem_cons.2 ⟨?_, fun e he => hrest e (List.mem_cons_of_mem g he)⟩
        refine hadd g.1 f.2 g.2 ?_ (hrest g List.mem_cons_self)
        rwa [← heq]
      · exact List.forall_mem_cons.2 ⟨hf, hrest⟩

end Factorization

namespace Poly

theorem monomial_eq_prod (m : Monomial) :
    monomial m 1 = (m.powers.map fun w => var w.1 ^ w.2).prod := by
  refine toMv_injective ?_
  change (monomial m 1).toMv = toMvHom _
  rw [map_list_prod, List.map_map, toMv_monomial, MvPolynomial.monomial_eq, MvPolynomial.C_1,
    one_mul, ← Monomial.prod_powers _ fun w => pow_zero (MvPolynomial.X w)]
  refine congrArg List.prod (List.map_congr_left fun w _ => ?_)
  rw [Function.comp_apply, map_pow]
  exact congrArg (· ^ w.2) (toMv_var w.1).symm

theorem associated_prod_filter {l : List Poly} (h0 : l.prod ≠ 0) :
    Associated (l.filter fun f => !f.isConstant).prod l.prod := by
  induction l with
  | nil => rfl
  | cons f l ih =>
    rw [List.prod_cons] at h0
    have hrest := ih (right_ne_zero_of_mul h0)
    rw [List.prod_cons]
    by_cases hf : f.isConstant = true
    · rw [List.filter_cons_of_neg (by simpa using hf)]
      have hunit : IsUnit f := isUnit_iff.2 ⟨hf, left_ne_zero_of_mul h0⟩
      exact hrest.trans (associated_unit_mul_left _ _ hunit).symm
    · rw [List.filter_cons_of_pos (by simpa using hf), List.prod_cons]
      exact hrest.mul_left f

/-! ## Irreducible factors -/

theorem eq_mul_of_findDivisor? {k : Kronecker} {p : Poly} {pieces : List Poly} {size : ℕ}
    {found : Found} (h : findDivisor? k p pieces size = some found) :
    p = found.divisor * found.cofactor := by
  obtain ⟨places, hplaces⟩ := Subset.exists_of_search?_eq_some h
  split at hplaces
  · cases hplaces
  · split at hplaces
    · cases hplaces
    · obtain ⟨q, hq, rfl⟩ := Option.map_eq_some_iff.1 hplaces
      rw [mul_comm]
      exact (divExact?_eq_some_iff.1 hq).2

theorem associated_recombineSteps (k : Kronecker) {steps size : ℕ} {p : Poly}
    {pieces : List Poly} (hp : p ≠ 0) :
    Associated (recombineSteps k steps size p pieces).prod p := by
  have hwhole {q : Poly} (hq : q ≠ 0) :
      Associated (if q.isConstant then [] else [q.normalized]).prod q := by
    split
    · next hconst => exact (associated_one_iff_isUnit.2 (isUnit_iff.2 ⟨hconst, hq⟩)).symm
    · rw [List.prod_singleton]
      exact (associated_normalized q).symm
  induction steps generalizing size p pieces with
  | zero => exact hwhole hp
  | succ steps ih =>
    unfold recombineSteps
    split
    · split
      · next found hfound =>
        have heq := eq_mul_of_findDivisor? hfound
        have hcofactor : found.cofactor ≠ 0 := by
          intro h0
          exact hp (by rw [heq, h0, mul_zero])
        rw [List.prod_cons]
        conv_rhs => rw [heq]
        exact (associated_normalized _).symm.mul_mul (ih hcofactor)
      · exact ih hp
    · exact hwhole hp

/-- The irreducible factors multiply to the polynomial. -/
theorem associated_irreducibleFactors {p : Poly} (hp : p ≠ 0) :
    Associated (irreducibleFactors p).prod p := by
  have hwhole : Associated [p.normalized].prod p := by
    rw [List.prod_singleton]
    exact (associated_normalized p).symm
  unfold irreducibleFactors
  split
  · exact hwhole
  · split
    · exact hwhole
    · next k hk =>
      dsimp only
      split
      · next hone => exact associated_preimages hk hone hp
      · exact associated_recombineSteps k hp

/-! ## Factors over all variables -/

/-- The squarefree parts of a polynomial with their multiplicities, those of its contents
over the listed variables before those of the primitive parts. -/
def squarefreePartsOver : List String → Poly → List (Poly × ℕ)
  | [], _ => []
  | v :: vs, p =>
    if p.isConstant then []
    else if p.degreeIn v = 0 then squarefreePartsOver vs p
    else
      let ⟨content, primitive⟩ := p.splitContent v
      squarefreePartsOver vs content ++ squarefreeParts primitive v

/-- The irreducible factors of a part, each as often as the part itself. -/
def factorsOfPart (part : Poly × ℕ) : List (Poly × ℕ) :=
  ((irreducibleFactors part.1).filter fun f => !f.isConstant).map fun f => (f, part.2)

theorem collectFactors_eq (vs : List String) (p : Poly) :
    collectFactors vs p = (squarefreePartsOver vs p).flatMap factorsOfPart := by
  induction vs generalizing p with
  | nil => rfl
  | cons w vs ih =>
    rw [collectFactors, squarefreePartsOver]
    split
    · rfl
    · split
      · exact ih p
      · rw [List.flatMap_append, ← ih]
        rfl

/-- No part where the polynomial is constant, those of the tail where it is free of the
first variable, and else those of a content and of a primitive part. -/
theorem squarefreePartsOver_cons {w : String} {vs : List String} {p : Poly}
    (hover : Over (w :: vs) p) (hp : p ≠ 0) :
    (p.isConstant = true ∧ squarefreePartsOver (w :: vs) p = []) ∨
      (Over vs p ∧ squarefreePartsOver (w :: vs) p = squarefreePartsOver vs p) ∨
        ∃ c q, IsSplit w p c q ∧ Over vs c ∧ squarefreePartsOver (w :: vs) p
          = squarefreePartsOver vs c ++ squarefreeParts q w := by
  rw [squarefreePartsOver]
  split
  · next hconst => exact Or.inl ⟨hconst, rfl⟩
  · split
    · next hfree => exact Or.inr (Or.inl ⟨hover.cons_of_degreeIn_eq_zero hfree, rfl⟩)
    · have hsplit := isSplit_splitContentBy (fun a b _ _ => isGcd_gcd a b) hover hp
      exact Or.inr (Or.inr ⟨_, _, hsplit, hsplit.over_content hover hp, rfl⟩)

/-- The powers of the squarefree parts multiply to the polynomial. -/
theorem associated_squarefreePartsOver {vs : List String} {p : Poly} (hover : Over vs p)
    (hp : p ≠ 0) : Associated ((squarefreePartsOver vs p).map fun f => f.1 ^ f.2).prod p := by
  have hconstant {q : Poly} (hconst : q.isConstant = true) (hq : q ≠ 0) :
      Associated (([] : List (Poly × ℕ)).map fun f => f.1 ^ f.2).prod q :=
    (associated_one_iff_isUnit.2 (isUnit_iff.2 ⟨hconst, hq⟩)).symm
  induction vs generalizing p with
  | nil => exact hconstant (isConstant_iff_degreeIn.2 fun x => hover x (by simp)) hp
  | cons w vs ih =>
    obtain ⟨hconst, hparts⟩ | ⟨hrest, hparts⟩ | ⟨c, q, hsplit, hc, hparts⟩ :=
      squarefreePartsOver_cons hover hp
    · rw [hparts]
      exact hconstant hconst hp
    · rw [hparts]
      exact ih hrest hp
    · rw [hparts, List.map_append, List.prod_append]
      conv_rhs => rw [hsplit.eq_mul]
      exact (ih hc hsplit.ne_zero).mul_mul (associated_squarefreeParts hsplit.primitive)

theorem pos_of_mem_squarefreePartsOver {vs : List String} {p : Poly} {part : Poly × ℕ}
    (h : part ∈ squarefreePartsOver vs p) : 0 < part.2 := by
  induction vs generalizing p with
  | nil => cases h
  | cons w vs ih =>
    unfold squarefreePartsOver at h
    split at h
    · cases h
    · split at h
      · exact ih h
      · rcases List.mem_append.1 h with h | h
        · exact ih h
        · exact pos_of_mem_squarefreeParts h

theorem dvd_of_mem_squarefreePartsOver {vs : List String} {p : Poly} (hover : Over vs p)
    (hp : p ≠ 0) {part : Poly × ℕ} (h : part ∈ squarefreePartsOver vs p) : part.1 ∣ p :=
  (dvd_pow_self part.1 (pos_of_mem_squarefreePartsOver h).ne').trans
    ((List.dvd_prod (List.mem_map_of_mem h)).trans (associated_squarefreePartsOver hover hp).dvd)

theorem associated_filter_irreducibleFactors {p : Poly} (hp : p ≠ 0) :
    Associated ((irreducibleFactors p).filter fun f => !f.isConstant).prod p := by
  have hfactors := associated_irreducibleFactors hp
  exact (associated_prod_filter fun h0 => hp (hfactors.eq_zero_iff.1 h0)).trans hfactors

theorem associated_collectFactors {vs : List String} {p : Poly} (hover : Over vs p)
    (hp : p ≠ 0) : Associated ((collectFactors vs p).map fun f => f.1 ^ f.2).prod p := by
  rw [collectFactors_eq, List.map_flatMap, prod_flatMap]
  refine (associated_prod_map fun part hpart => ?_).trans (associated_squarefreePartsOver hover hp)
  have hpart0 := ne_zero_of_dvd_ne_zero hp (dvd_of_mem_squarefreePartsOver hover hp hpart)
  have hpow := map_list_prod (powMonoidHom part.2)
    ((irreducibleFactors part.1).filter fun f => !f.isConstant)
  rw [factorsOfPart, List.map_map]
  exact (Associated.of_eq hpow.symm).trans (associated_filter_irreducibleFactors hpart0).pow_pow

theorem pos_of_mem_collectFactors {vs : List String} {p : Poly} {f : Poly × ℕ}
    (h : f ∈ collectFactors vs p) : 0 < f.2 := by
  rw [collectFactors_eq] at h
  obtain ⟨part, hpart, h⟩ := List.mem_flatMap.1 h
  have hpos := pos_of_mem_squarefreePartsOver hpart
  obtain ⟨g, -, rfl⟩ := List.mem_map.1 h
  exact hpos

/-! ## The factorization -/

/-- The factors found, before they are sorted and merged. -/
def foundFactors (p : Poly) : List (Poly × ℕ) :=
  let rest := (p.divMonomial? p.monomialContent).getD p
  p.monomialContent.powers.map (fun w => (var w.1, w.2)) ++ collectFactors rest.vars rest

/-- What is left once the monomial content is taken out. -/
def monomialFree (p : Poly) : Poly := (p.divMonomial? p.monomialContent).getD p

theorem eq_monomialContent_mul (p : Poly) : p = monomial p.monomialContent 1 * p.monomialFree := by
  obtain ⟨rest, hrest, heq⟩ := exists_divMonomial?_monomialContent p
  rwa [monomialFree, hrest, Option.getD_some]

theorem monomialFree_ne_zero {p : Poly} (hp : p ≠ 0) : p.monomialFree ≠ 0 := by
  intro h0
  exact hp (by rw [eq_monomialContent_mul p, h0, mul_zero])

/-- The squarefree parts of a polynomial with their multiplicities. -/
def parts (p : Poly) : List (Poly × ℕ) := squarefreePartsOver p.monomialFree.vars p.monomialFree

theorem ne_zero_of_mem_parts {p : Poly} (hp : p ≠ 0) {part : Poly × ℕ} (h : part ∈ p.parts) :
    part.1 ≠ 0 :=
  ne_zero_of_dvd_ne_zero (monomialFree_ne_zero hp)
    (dvd_of_mem_squarefreePartsOver (over_vars _) (monomialFree_ne_zero hp) h)

/-- A factor found is a variable or a factor of a part. -/
theorem mem_foundFactors {p : Poly} {f : Poly × ℕ} (h : f ∈ p.foundFactors) :
    (∃ w, f.1 = var w) ∨
      ∃ part ∈ p.parts, f.1 ∈ irreducibleFactors part.1 ∧ f.1.isConstant = false := by
  rcases List.mem_append.1 h with h | h
  · obtain ⟨w, -, rfl⟩ := List.mem_map.1 h
    exact Or.inl ⟨w.1, rfl⟩
  · rw [collectFactors_eq] at h
    obtain ⟨part, hpart, h⟩ := List.mem_flatMap.1 h
    obtain ⟨g, hg, rfl⟩ := List.mem_map.1 h
    obtain ⟨hmem, hconst⟩ := List.mem_filter.1 hg
    exact Or.inr ⟨part, hpart, hmem, by rwa [Bool.not_eq_true'] at hconst⟩

theorem factors_factorize {p : Poly} (hp : p.isConstant = false) :
    p.factorize.factors = Factorization.mergeEqual
      (p.foundFactors.mergeSort fun f g => (Factorization.cmp f.1 g.1).isLE) := by
  rw [factorize, constantValue?_eq_none_iff.2 hp]
  rfl

theorem ne_zero_of_not_isConstant {p : Poly} (hp : p.isConstant = false) : p ≠ 0 := by
  rintro rfl
  exact absurd hp (by decide)

theorem associated_foundFactors {p : Poly} (hp : p ≠ 0) :
    Associated (p.foundFactors.map fun f => f.1 ^ f.2).prod p := by
  rw [foundFactors, List.map_append, List.prod_append, List.map_map]
  conv_rhs => rw [eq_monomialContent_mul p, monomial_eq_prod]
  exact (Associated.refl _).mul_mul
    (associated_collectFactors (over_vars _) (monomialFree_ne_zero hp))

/-- The powers of the factors multiply to the polynomial, up to a constant. -/
theorem associated_product_factorize {p : Poly} (hp : p.isConstant = false) :
    Associated (p.factorize.factors.map fun f => f.1 ^ f.2).prod p := by
  rw [factors_factorize hp, Factorization.prod_mergeEqual,
    ((List.mergeSort_perm _ _).map _).prod_eq]
  exact associated_foundFactors (ne_zero_of_not_isConstant hp)

theorem pos_of_mem_foundFactors {p : Poly} {f : Poly × ℕ} (h : f ∈ p.foundFactors) :
    0 < f.2 := by
  rcases List.mem_append.1 h with h | h
  · obtain ⟨w, hw, rfl⟩ := List.mem_map.1 h
    exact Nat.pos_of_ne_zero (p.monomialContent.exponents.nonzero w hw)
  · exact pos_of_mem_collectFactors h

theorem pos_of_mem_factorize {p : Poly} {f : Poly × ℕ} (h : f ∈ p.factorize.factors) :
    0 < f.2 := by
  by_cases hp : p.isConstant = false
  · rw [factors_factorize hp] at h
    refine Factorization.forall_mem_mergeEqual (P := fun g => 0 < g.2) (fun g hg => ?_)
      (fun _ _ _ hk _ => Nat.add_pos_left hk _) f h
    exact pos_of_mem_foundFactors ((List.mergeSort_perm _ _).mem_iff.1 hg)
  · rw [Bool.not_eq_false] at hp
    obtain ⟨c, rfl⟩ := isConstant_iff.1 hp
    rw [factorize, constantValue?_eq_some_iff.2 rfl] at h
    cases h

theorem dvd_of_mem_factorize {p : Poly} (hp : p.isConstant = false) {f : Poly × ℕ}
    (h : f ∈ p.factorize.factors) : f.1 ∣ p :=
  (dvd_pow_self f.1 (pos_of_mem_factorize h).ne').trans
    ((List.dvd_prod (List.mem_map_of_mem h)).trans (associated_product_factorize hp).dvd)

theorem leadingCoeff_product_ne_zero {p : Poly} (hp : p.isConstant = false) :
    (Factorization.product p.factorize.factors).leadingCoeff ≠ 0 := by
  rw [Ne, leadingCoeff_eq_zero_iff, Factorization.product_eq_prod]
  exact mt (associated_product_factorize hp).eq_zero_iff.1 (ne_zero_of_not_isConstant hp)

/-- The constant makes up for what normalizing took away. -/
theorem expand_factorize_eq (p : Poly) : p.factorize.expand = p := by
  by_cases hp : p.isConstant = false
  · obtain ⟨u, hu⟩ := associated_product_factorize hp
    obtain ⟨c, hc⟩ := isConstant_iff.1 (isUnit_iff.1 u.isUnit).1
    have hproduct := Factorization.product_eq_prod p.factorize.factors
    rw [← hproduct, hc, mul_comm] at hu
    have hlead := leadingCoeff_product_ne_zero hp
    have hconstant : p.factorize.constant = c := by
      have hratio : p.factorize.constant
          = p.leadingCoeff / (Factorization.product p.factorize.factors).leadingCoeff := by
        rw [factorize, constantValue?_eq_none_iff.2 hp]
      rw [hratio, div_eq_iff hlead]
      conv_lhs => rw [← hu]
      rw [leadingCoeff_mul, leadingCoeff_constant]
    rw [Factorization.expand, hconstant, scale_eq_mul, hu]
  · rw [Bool.not_eq_false] at hp
    obtain ⟨c, rfl⟩ := isConstant_iff.1 hp
    rw [factorize, constantValue?_eq_some_iff.2 rfl, Factorization.expand, scale_eq_mul]
    exact mul_one _

/-! ## Radicals -/

theorem foldl_mul_eq_prod (l : List Poly) : l.foldl mul one = l.prod := by
  rw [List.prod_eq_foldl]
  rfl

theorem radical_eq_prod {p : Poly} (hp : p.isConstant = false) :
    p.radical = (p.factorize.factors.map Prod.fst).prod := by
  rw [radical, hp, if_neg Bool.false_ne_true, foldl_mul_eq_prod, factors, hp,
    if_neg Bool.false_ne_true]

/-- Only constants have constant radicals. -/
theorem isConstant_radical_iff {p : Poly} : p.radical.isConstant = true ↔ p.isConstant = true := by
  by_cases hp : p.isConstant = true
  · rw [radical, if_pos hp]
  · refine iff_of_false (fun hradical => ?_) hp
    rw [Bool.not_eq_true] at hp
    have hproduct := associated_product_factorize hp
    by_cases h0 : p.radical = 0
    · rw [radical_eq_prod hp, List.prod_eq_zero_iff] at h0
      obtain ⟨f, hf, hf0⟩ := List.mem_map.1 h0
      refine ne_zero_of_not_isConstant hp (hproduct.eq_zero_iff.1 ?_)
      refine List.prod_eq_zero (List.mem_map.2 ⟨f, hf, ?_⟩)
      rw [hf0, zero_pow (pos_of_mem_factorize hf).ne']
    · have hunit := isUnit_iff.2 ⟨hradical, h0⟩
      rw [radical_eq_prod hp] at hunit
      have hpowers : IsUnit (p.factorize.factors.map fun f => f.1 ^ f.2).prod := by
        apply List.prod_isUnit
        intro q hq
        obtain ⟨f, hf, rfl⟩ := List.mem_map.1 hq
        exact (isUnit_of_dvd_unit (List.dvd_prod (List.mem_map_of_mem hf)) hunit).pow f.2
      have hconstant := (isUnit_iff.1 (hproduct.isUnit hpowers)).1
      rw [hp] at hconstant
      cases hconstant

/-! ## Values -/

section Value

variable {K : Type*} [Field K] [CharZero K] {v : String → K}

/-- A polynomial vanishes where one of its factors does. -/
theorem value_eq_zero_iff_exists_factor (p : Poly) :
    p.value v = 0 ↔ ∃ f ∈ p.factors, f.value v = 0 := by
  unfold factors
  split
  · simp
  · next hconst =>
    rw [Bool.not_eq_true] at hconst
    have hassoc := (associated_product_factorize hconst).map (valueHom v)
    rw [map_list_prod, List.map_map] at hassoc
    rw [← valueHom_apply, ← hassoc.eq_zero_iff, List.prod_eq_zero_iff]
    constructor
    · intro h
      obtain ⟨f, hf, h0⟩ := List.mem_map.1 h
      rw [Function.comp_apply, map_pow] at h0
      refine ⟨f.1, List.mem_map_of_mem hf, ?_⟩
      rw [← valueHom_apply]
      exact eq_zero_of_pow_eq_zero h0
    · rintro ⟨g, hg, h0⟩
      obtain ⟨f, hf, rfl⟩ := List.mem_map.1 hg
      refine List.mem_map.2 ⟨f, hf, ?_⟩
      rw [Function.comp_apply, map_pow, valueHom_apply, h0,
        zero_pow (pos_of_mem_factorize hf).ne']

/-- The radical vanishes exactly where the polynomial does. -/
theorem value_radical_eq_zero_iff (p : Poly) : p.radical.value v = 0 ↔ p.value v = 0 := by
  unfold radical
  split
  · rfl
  · rw [foldl_mul_eq_prod, ← valueHom_apply, map_list_prod, List.prod_eq_zero_iff,
      value_eq_zero_iff_exists_factor, List.mem_map]
    simp only [valueHom_apply]

end Value

end Poly
end Meadow
