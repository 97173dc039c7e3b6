import Mathlib
import Meadow.Proofs.Subset
import Meadow.Proofs.Univariate.Division
import Meadow.Univariate.Factor

set_option autoImplicit false

/-!
# Factors of integer polynomials

The factors of an integer polynomial multiply to its primitive part
(`IntPoly.prod_factorSquarefree`), whatever the prime and the lifted factors were: a
product of lifted factors becomes a factor only by an exact division.  Their leading
coefficients are positive (`IntPoly.leadingCoeff_pos_of_mem_factorSquarefree`).
-/

namespace Meadow

namespace IntPoly

open Polynomial

/-- A factor that is found is a candidate and divides exactly. -/
theorem exists_of_findFactor?_eq_some {f : IntPoly} {m size : ℕ} {lifted : List IntPoly}
    {found : Found} (h : findFactor? f m lifted size = some found) :
    ∃ chosen, found.factor = candidate f m chosen ∧ 1 < found.factor.length ∧
      divExact? f found.factor = some found.cofactor := by
  obtain ⟨places, hplaces⟩ := Subset.exists_of_search?_eq_some h
  dsimp only at hplaces
  split at hplaces
  · next hlength =>
    obtain ⟨q, hq, rfl⟩ := Option.map_eq_some_iff.1 hplaces
    exact ⟨_, rfl, hlength, hq⟩
  · cases hplaces

theorem toPolynomial_of_findFactor? {f : IntPoly} {m size : ℕ} {lifted : List IntPoly}
    {found : Found} (h : findFactor? f m lifted size = some found) :
    toPolynomial f = toPolynomial found.factor * toPolynomial found.cofactor := by
  obtain ⟨-, -, -, hdivide⟩ := exists_of_findFactor?_eq_some h
  rw [toPolynomial_divExact? hdivide, mul_comm]

theorem prod_recombineSteps (m steps size : ℕ) (f : IntPoly) (lifted : List IntPoly) :
    ((recombineSteps m steps size f lifted).map toPolynomial).prod = toPolynomial f := by
  induction steps generalizing size f lifted with
  | zero => simp [recombineSteps]
  | succ steps ih =>
    unfold recombineSteps
    split
    · split
      · next found hfound =>
        rw [List.map_cons, List.prod_cons, ih, toPolynomial_of_findFactor? hfound]
      · exact ih _ _ _
    · simp

/-- The factors multiply to the primitive part. -/
theorem prod_factorSquarefree (f : IntPoly) :
    ((factorSquarefree f).map toPolynomial).prod = toPolynomial (primitive (trim f)) := by
  have hone : (([primitive (trim f)] : List IntPoly).map toPolynomial).prod
      = toPolynomial (primitive (trim f)) := by simp
  unfold factorSquarefree
  dsimp only
  split
  · exact hone
  · split
    · exact hone
    · split
      · exact hone
      · exact prod_recombineSteps _ _ _ _ _

/-! ## Leading coefficients -/

/-- The product that a candidate is made of has no leading zeros. -/
theorem trimmed_product {f : IntPoly} (hlead : f.lead ≠ 0) (m : ℕ) (chosen : List IntPoly) :
    Trimmed (chosen.foldl (fun acc g => balanced m (acc.mul g)) [f.lead]) := by
  have main {acc : IntPoly} (h : Trimmed acc) :
      Trimmed (chosen.foldl (fun acc g => balanced m (acc.mul g)) acc) := by
    induction chosen generalizing acc with
    | nil => exact h
    | cons g chosen ih => exact ih (trimmed_trim _)
  exact main fun hlast => hlead (Option.some.inj hlast)

/-- A factor that is found and its cofactor have positive leading coefficients. -/
theorem lead_pos_of_findFactor? {f : IntPoly} {m size : ℕ} {lifted : List IntPoly}
    {found : Found} (hf : Trimmed f) (hlead : 0 < f.lead)
    (h : findFactor? f m lifted size = some found) :
    (Trimmed found.factor ∧ 0 < found.factor.lead) ∧
      Trimmed found.cofactor ∧ 0 < found.cofactor.lead := by
  obtain ⟨chosen, hchosen, hlength, hdivide⟩ := exists_of_findFactor?_eq_some h
  have hproduct := trimmed_product hlead.ne' m chosen
  have htrimmed : Trimmed found.factor := hchosen ▸ hproduct.primitive
  have hne : f ≠ [] := by
    rintro rfl
    exact lt_irrefl _ hlead
  have heq := toPolynomial_divExact? hdivide
  have hqtrimmed := trimmed_of_divExact?_eq_some hf hne htrimmed hdivide
  have hfactor : 0 < found.factor.lead := by
    rw [hchosen]
    refine hproduct.lead_primitive_pos fun hnil => ?_
    rw [hchosen, candidate, hnil] at hlength
    cases hlength
  refine ⟨⟨htrimmed, hfactor⟩, hqtrimmed, ?_⟩
  have hmul := congrArg leadingCoeff heq
  rw [leadingCoeff_mul, hf.leadingCoeff_eq, hqtrimmed.leadingCoeff_eq, htrimmed.leadingCoeff_eq]
    at hmul
  rw [hmul] at hlead
  exact pos_of_mul_pos_left hlead hfactor.le

theorem lead_pos_of_mem_recombineSteps {m steps size : ℕ} {f : IntPoly} {lifted : List IntPoly}
    (hf : Trimmed f) (hlead : 0 < f.lead) :
    ∀ g ∈ recombineSteps m steps size f lifted, Trimmed g ∧ 0 < g.lead := by
  induction steps generalizing size f lifted with
  | zero => exact List.forall_mem_singleton.2 ⟨hf, hlead⟩
  | succ steps ih =>
    unfold recombineSteps
    split
    · split
      · next found hfound =>
        obtain ⟨hfactor, hcofactor⟩ := lead_pos_of_findFactor? hf hlead hfound
        exact List.forall_mem_cons.2 ⟨hfactor, ih hcofactor.1 hcofactor.2⟩
      · exact ih hf hlead
    · exact List.forall_mem_singleton.2 ⟨hf, hlead⟩

/-- The factors have positive leading coefficients. -/
theorem leadingCoeff_pos_of_mem_factorSquarefree {f : IntPoly} (hf : toPolynomial f ≠ 0) :
    ∀ g ∈ factorSquarefree f, 0 < (toPolynomial g).leadingCoeff := by
  have htrim := trimmed_trim f
  have hne : trim f ≠ [] := by
    rwa [Ne, ← htrim.toPolynomial_eq_zero_iff, toPolynomial_trim]
  have hpos := htrim.lead_primitive_pos hne
  have hmem {l : List IntPoly} (h : ∀ g ∈ l, Trimmed g ∧ 0 < g.lead) :
      ∀ g ∈ l, 0 < (toPolynomial g).leadingCoeff := by
    intro g hg
    obtain ⟨htrimmed, hlead⟩ := h g hg
    rwa [htrimmed.leadingCoeff_eq]
  have hone := hmem (List.forall_mem_singleton.2 ⟨htrim.primitive, hpos⟩)
  unfold factorSquarefree
  dsimp only
  split
  · exact hone
  · split
    · exact hone
    · split
      · exact hone
      · exact hmem (lead_pos_of_mem_recombineSteps htrim.primitive hpos)

end IntPoly
end Meadow
