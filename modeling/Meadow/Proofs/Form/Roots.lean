import Mathlib
import Meadow.Proofs.Form.Consistency
import Meadow.Proofs.Poly.Construction
import Meadow.Proofs.Poly.Irreducible
import Meadow.Proofs.Poly.Radical

set_option autoImplicit false

/-!
# Roots of an evaluated polynomial

An evaluation is zero exactly if the assumptions make some factor zero, and otherwise it is
the product of what they leave of the factors (`Assumptions.evalPoly_eq_zero_iff`,
`Assumptions.evalPoly_eq_prod`).  Where only variables are assumed to be zero, the assumption
that a root of the evaluation is zero as well makes exactly those factors zero of which a
multiple of the root is left (`Assumptions.makesZero_withZero_iff`).  For an irreducible root
there is one.  A root that is kept whole may be spread over several factors, and then there
is none.
-/

namespace Meadow

/-! ## Zero for variables -/

namespace Poly

theorem coeff_substituteZeros (p : Poly) (ws : List String) (m : Monomial) :
    (p.substituteZeros ws).coeff m = if ∀ w ∈ ws, m.exponent w = 0 then p.coeff m else 0 := by
  induction ws generalizing p with
  | nil => exact (if_pos nofun).symm
  | cons w ws ih =>
    rw [substituteZeros_cons, ih, coeff_substituteZero, ← ite_and]
    exact if_congr (by rw [List.forall_mem_cons, and_comm]) rfl rfl

/-- Only the set of the variables matters. -/
theorem substituteZeros_congr {ws xs : List String} (h : ∀ w, w ∈ ws ↔ w ∈ xs) (p : Poly) :
    p.substituteZeros ws = p.substituteZeros xs := by
  refine ext_coeff fun m => ?_
  simp only [coeff_substituteZeros, h]

theorem substituteZero_substituteZeros (p : Poly) (w : String) (ws : List String) :
    (p.substituteZeros ws).substituteZero w = p.substituteZeros (w :: ws) := by
  refine ext_coeff fun m => ?_
  rw [coeff_substituteZero, coeff_substituteZeros, coeff_substituteZeros, ← ite_and]
  exact if_congr (by rw [List.forall_mem_cons]) rfl rfl

theorem substituteZeros_of_free {p : Poly} {ws : List String} (h : ∀ w ∈ ws, p.degreeIn w = 0) :
    p.substituteZeros ws = p := by
  refine ext_coeff fun m => ?_
  rw [coeff_substituteZeros, ite_eq_left_iff]
  intro hm
  push Not at hm
  obtain ⟨w, hw, hexponent⟩ := hm
  by_contra hcoeff
  have hle := exponent_le_degreeIn (Ne.symm hcoeff) w
  rw [h w hw] at hle
  exact hexponent (Nat.le_zero.1 hle)

/-- Zero for a variable leaves nothing exactly of the multiples of the variable. -/
theorem substituteZero_eq_zero_iff {p : Poly} {w : String} :
    p.substituteZero w = 0 ↔ var w ∣ p := by
  constructor
  · intro h
    have hdivides (t : Monomial × ℚ) (ht : t ∈ p.terms) :
        (Monomial.power w 1).divides t.1 = true := by
      have hexponent : t.1.exponent w ≠ 0 := by
        intro h0
        have hcoeff := congrArg (coeff · t.1) h
        simp only [coeff_substituteZero, h0, if_true] at hcoeff
        exact coeff_ne_zero_of_mem ht hcoeff
      refine Monomial.divides_iff.2 fun x => ?_
      rw [Monomial.exponent_power]
      split
      · next hx => rw [← hx]; omega
      · exact Nat.zero_le _
    obtain ⟨q, -, hq⟩ := exists_divMonomial? hdivides
    exact ⟨q, hq⟩
  · rintro ⟨q, rfl⟩
    refine toMv_injective ?_
    rw [toMv_substituteZero, ← mul_def, toMv_mul, map_mul, toMv_var, zeroFor,
      MvPolynomial.aeval_X, if_pos rfl, zero_mul]
    exact toMv_zero.symm

end Poly

namespace Assumptions

variable {a : Assumptions} {p r : Poly}

/-! ## When an evaluation is zero -/

/-- The assumptions make a factor zero: it is not among those assumed not to be, and with zero
for the variables assumed to be zero nothing is left of it, or a multiple of a polynomial
assumed to be zero. -/
def MakesZero (a : Assumptions) (f : Poly) : Prop :=
  a.nonzeros.contains f = false ∧
    (f.substituteZeros a.zeroVars = 0 ∨ ∃ d ∈ a.zeroDivisors, d ∣ f.substituteZeros a.zeroVars)

/-- What the assumptions leave of factors that they do not make zero. -/
def remaining (a : Assumptions) (fs : List Poly) : List Poly :=
  (fs.filter fun f => !a.nonzeros.contains f).map fun f => f.substituteZeros a.zeroVars

theorem evalFactors_of_makesZero {fs : List Poly} (h : ∃ f ∈ fs, a.MakesZero f) (acc : Poly) :
    a.evalFactors a.zeroDivisors acc fs = 0 := by
  induction fs generalizing acc with
  | nil =>
    obtain ⟨f, hf, -⟩ := h
    cases hf
  | cons f fs ih =>
    rw [List.exists_mem_cons_iff] at h
    unfold evalFactors
    split
    · next hf =>
      exact ih (h.resolve_left fun hzero => Bool.false_ne_true (hzero.1.symm.trans hf)) acc
    · dsimp only
      split
      · rfl
      · next htest => exact ih (h.resolve_left fun hzero =>
          htest (isZero_or_any_divExact?_iff.2 hzero.2)) _

theorem evalFactors_of_not_makesZero {fs : List Poly} (h : ∀ f ∈ fs, ¬ a.MakesZero f)
    (acc : Poly) :
    a.evalFactors a.zeroDivisors acc fs = acc * (a.remaining fs).prod := by
  induction fs generalizing acc with
  | nil => exact (mul_one acc).symm
  | cons f fs ih =>
    obtain ⟨hf, hfs⟩ := List.forall_mem_cons.1 h
    unfold evalFactors
    split
    · next hnonzero => rw [ih hfs, remaining, remaining, List.filter_cons_of_neg (by simpa)]
    · next hnonzero =>
      rw [Bool.not_eq_true] at hnonzero
      dsimp only
      split
      · next htest => exact absurd ⟨hnonzero, isZero_or_any_divExact?_iff.1 htest⟩ hf
      · rw [ih hfs, remaining, remaining, List.filter_cons_of_pos (by simpa), List.map_cons,
          List.prod_cons, Poly.mul_def, mul_assoc]

theorem prod_remaining_ne_zero {fs : List Poly} (h : ∀ f ∈ fs, ¬ a.MakesZero f) :
    (a.remaining fs).prod ≠ 0 := by
  rw [Ne, List.prod_eq_zero_iff]
  intro h0
  obtain ⟨f, hf, hzero⟩ := List.mem_map.1 h0
  obtain ⟨hmem, hnonzero⟩ := List.mem_filter.1 hf
  exact h f hmem ⟨by simpa using hnonzero, Or.inl hzero⟩

theorem evalPoly_of_not_isConstant (hp : p.isConstant = false) :
    a.evalPoly p = a.evalFactors a.zeroDivisors 1 p.factors := by
  rw [evalPoly, hp, if_neg Bool.false_ne_true, Poly.one_def]

theorem evalPoly_eq_prod (hp : p.isConstant = false) (h : ∀ f ∈ p.factors, ¬ a.MakesZero f) :
    a.evalPoly p = (a.remaining p.factors).prod := by
  rw [evalPoly_of_not_isConstant hp, evalFactors_of_not_makesZero h, one_mul]

theorem evalPoly_eq_zero_iff (hp : p.isConstant = false) :
    a.evalPoly p = 0 ↔ ∃ f ∈ p.factors, a.MakesZero f := by
  constructor
  · intro h0
    by_contra h
    push Not at h
    rw [evalPoly_eq_prod hp h] at h0
    exact prod_remaining_ne_zero h h0
  · intro h
    rw [evalPoly_of_not_isConstant hp, evalFactors_of_makesZero h]

/-! ## A root assumed to be zero -/

theorem mem_zeroVars_withZero {w : String} :
    w ∈ (a.withZero r).zeroVars ↔ r = .var w ∨ w ∈ a.zeroVars := by
  rw [mem_zeroVars_iff, mem_zeroVars_iff, contains_zeros_withZero]

/-- A root that is no variable adds none. -/
theorem substituteZeros_withZero (h : r.asVariable? = Option.none) (f : Poly) :
    f.substituteZeros (a.withZero r).zeroVars = f.substituteZeros a.zeroVars := by
  refine Poly.substituteZeros_congr (fun w => ?_) f
  rw [mem_zeroVars_withZero, or_iff_right]
  intro hw
  rw [Poly.asVariable?_eq_some_iff.2 hw] at h
  cases h

/-- Beside variables, a root is the only polynomial to divide by. -/
theorem mem_zeroDivisors_withZero (hzeros : ∀ z ∈ a.zeros.toList, ∃ w, z = .var w) {d : Poly} :
    d ∈ (a.withZero r).zeroDivisors ↔ d.isConstant = false ∧
      r.asVariable? = Option.none ∧ r.substituteZeros (a.withZero r).zeroVars = d := by
  rw [mem_zeroDivisors_iff]
  refine and_congr_right fun _ => ⟨?_, fun h => ⟨r, ?_, h⟩⟩
  · rintro ⟨z, hz, hvar, hd⟩
    rcases contains_zeros_withZero.1 (FinSet.mem_toList_iff.1 hz) with rfl | hz
    · exact ⟨hvar, hd⟩
    · obtain ⟨w, rfl⟩ := hzeros z (FinSet.mem_toList_iff.2 hz)
      rw [Poly.asVariable?_eq_some_iff.2 rfl] at hvar
      cases hvar
  · exact FinSet.mem_toList_iff.2 (contains_zeros_withZero.2 (Or.inl rfl))

/-- Beside variables, a root that is free of them makes those factors zero of which a
multiple of the root is left. -/
theorem makesZero_withZero_iff (hzeros : ∀ z ∈ a.zeros.toList, ∃ w, z = .var w)
    (hr : r.isConstant = false) (hfree : ∀ w ∈ a.zeroVars, r.degreeIn w = 0) {f : Poly} :
    (a.withZero r).MakesZero f ↔
      a.nonzeros.contains f = false ∧ r ∣ f.substituteZeros a.zeroVars := by
  refine and_congr_right fun _ => ?_
  -- a variable is put to zero, and any other root is divided by
  cases hvar : r.asVariable? with
  | none =>
    have hself : r.substituteZeros (a.withZero r).zeroVars = r := by
      rw [substituteZeros_withZero hvar, Poly.substituteZeros_of_free hfree]
    rw [substituteZeros_withZero hvar]
    constructor
    · rintro (h0 | ⟨d, hd, hdvd⟩)
      · exact h0 ▸ dvd_zero r
      · obtain ⟨-, -, rfl⟩ := (mem_zeroDivisors_withZero hzeros).1 hd
        rwa [hself] at hdvd
    · exact fun hdvd => Or.inr ⟨r, (mem_zeroDivisors_withZero hzeros).2 ⟨hr, hvar, hself⟩, hdvd⟩
  | some w =>
    obtain rfl := Poly.asVariable?_eq_some_iff.1 hvar
    have hvars (x : String) : x ∈ (a.withZero (.var w)).zeroVars ↔ x ∈ w :: a.zeroVars := by
      rw [mem_zeroVars_withZero, Poly.var_injective.eq_iff, List.mem_cons, eq_comm]
    have hdivisors (d : Poly) : d ∉ (a.withZero (.var w)).zeroDivisors := by
      rw [mem_zeroDivisors_withZero hzeros, hvar]
      rintro ⟨-, h, -⟩
      cases h
    rw [Poly.substituteZeros_congr hvars, ← Poly.substituteZero_substituteZeros,
      ← Poly.substituteZero_eq_zero_iff, or_iff_left]
    rintro ⟨d, hd, -⟩
    exact hdivisors d hd

theorem degreeIn_of_dvd_evalPoly (hq : (a.evalPoly p).isConstant = false)
    (hdvd : r ∣ a.evalPoly p) {w : String} (hw : w ∈ a.zeroVars) : r.degreeIn w = 0 :=
  Poly.degreeIn_eq_zero_of_dvd (Poly.ne_zero_of_not_isConstant hq) (degreeIn_evalPoly hw p) hdvd

theorem not_isConstant_of_evalPoly (h : (a.evalPoly p).isConstant = false) :
    p.isConstant = false := by
  by_contra hp
  rw [evalPoly, if_pos (by simpa using hp)] at h
  exact hp h

/-- With a root assumed to be zero, the evaluation is zero exactly if a multiple of the root
is left of some factor. -/
theorem evalPoly_withZero_eq_zero_iff (hzeros : ∀ z ∈ a.zeros.toList, ∃ w, z = .var w)
    (hq : (a.evalPoly p).isConstant = false) (hr : r.isConstant = false)
    (hdvd : r ∣ a.evalPoly p) :
    (a.withZero r).evalPoly p = 0 ↔
      ∃ f ∈ p.factors, a.nonzeros.contains f = false ∧ r ∣ f.substituteZeros a.zeroVars := by
  rw [evalPoly_eq_zero_iff (not_isConstant_of_evalPoly hq)]
  simp only [makesZero_withZero_iff hzeros hr fun w => degreeIn_of_dvd_evalPoly hq hdvd]

/-- An irreducible polynomial that divides the evaluation divides what is left of a factor. -/
theorem exists_dvd_substituteZeros (hq : (a.evalPoly p).isConstant = false) (hr : Irreducible r)
    (hdvd : r ∣ a.evalPoly p) :
    ∃ f ∈ p.factors, a.nonzeros.contains f = false ∧ r ∣ f.substituteZeros a.zeroVars := by
  have hp := not_isConstant_of_evalPoly hq
  have hnot : ∀ f ∈ p.factors, ¬ a.MakesZero f := fun f hf hzero =>
    Poly.ne_zero_of_not_isConstant hq ((evalPoly_eq_zero_iff hp).2 ⟨f, hf, hzero⟩)
  -- this is where a root that is kept whole fails: it need not divide one of the factors
  rw [evalPoly_eq_prod hp hnot] at hdvd
  obtain ⟨g, hg, hrg⟩ := (hr.prime.dvd_prod_iff).1 hdvd
  obtain ⟨f, hf, rfl⟩ := List.mem_map.1 hg
  obtain ⟨hmem, hnonzero⟩ := List.mem_filter.1 hf
  exact ⟨f, hmem, by simpa using hnonzero, hrg⟩

/-- Let only variables be assumed to be zero, and let `r` be a root of the evaluation of `p`.
Where `r` is assumed to be zero as well, the evaluation of `p` is zero exactly if a multiple of
`r` is left of a single factor of `p`.  There is such a factor if `r` is irreducible.  What was
first left of `p` becomes zero in any case, if only `r` is not assumed not to be. -/
theorem evalPoly_withZero_root (hzeros : ∀ z ∈ a.zeros.toList, ∃ w, z = .var w)
    (hq : (a.evalPoly p).isConstant = false) (hr : r ∈ (a.evalPoly p).factors) :
    ((a.withZero r).evalPoly p = 0 ↔
      ∃ f ∈ p.factors, a.nonzeros.contains f = false ∧ r ∣ f.substituteZeros a.zeroVars) ∧
    (Irreducible r → (a.withZero r).evalPoly p = 0) ∧
    (a.nonzeros.contains r = false → (a.withZero r).evalPoly (a.evalPoly p) = 0) := by
  have hconst := Poly.not_isConstant_of_mem_factors hq hr
  have hdvd := Poly.dvd_of_mem_factors hr
  have hiff := evalPoly_withZero_eq_zero_iff hzeros hq hconst hdvd
  refine ⟨hiff, fun hirreducible => hiff.2 (exists_dvd_substituteZeros hq hirreducible hdvd),
    fun hnonzero => ?_⟩
  have hfree (w : String) : w ∈ a.zeroVars → r.degreeIn w = 0 := degreeIn_of_dvd_evalPoly hq hdvd
  refine (evalPoly_eq_zero_iff hq).2 ⟨r, hr, (makesZero_withZero_iff hzeros hconst hfree).2 ?_⟩
  rw [Poly.substituteZeros_of_free hfree]
  exact ⟨hnonzero, dvd_rfl⟩

end Assumptions
end Meadow
