import Mathlib
import Meadow.Proofs.Form.Leaves

set_option autoImplicit false

/-!
# Leaves that are reached

A leaf that an evaluation does not make zero need not be reached by any valuation: what
is assumed zero on the way is only ever tested one polynomial at a time.  It is reached,
by a valuation that gives it a value other than zero, exactly when the product of
everything that must not vanish is outside the radical of the ideal of what must
(`Leaf.consistent_iff`).  If no condition was assumed to be zero on the way, it is
(`Form.consistent_of_zeros_eq`).
-/

namespace Meadow

namespace Leaf

/-- The ideal of what is assumed to be zero. -/
noncomputable def zeroIdeal (leaf : Leaf) : Ideal Poly :=
  Ideal.span {p | leaf.assumptions.zeros.contains p = true}

/-- The product of all that is not zero where the leaf is reached with a value other than
zero. -/
noncomputable def nonzeroProduct (leaf : Leaf) : Poly :=
  leaf.num * leaf.den * leaf.assumptions.nonzeros.toList.prod

/-- What must vanish does not make vanish what must not. -/
def Consistent (leaf : Leaf) : Prop := leaf.nonzeroProduct ∉ leaf.zeroIdeal.radical

section Value

variable {K : Type*} [Field K] [CharZero K] {v : String → K} {leaf : Leaf}

theorem value_nonzeroProduct_ne_zero_iff : leaf.nonzeroProduct.value v ≠ 0 ↔
    leaf.num.value v / leaf.den.value v ≠ 0 ∧
      ∀ p, leaf.assumptions.nonzeros.contains p = true → p.value v ≠ 0 := by
  have hprod : leaf.assumptions.nonzeros.toList.prod.value v ≠ 0 ↔
      ∀ p, leaf.assumptions.nonzeros.contains p = true → p.value v ≠ 0 := by
    rw [← Poly.valueHom_apply, map_list_prod, Ne, List.prod_eq_zero_iff, List.mem_map]
    constructor
    · intro h p hp h0
      exact h ⟨p, FinSet.mem_toList_iff.2 hp, (Poly.valueHom_apply v p).trans h0⟩
    · rintro h ⟨p, hp, h0⟩
      exact h p (FinSet.mem_toList_iff.1 hp) ((Poly.valueHom_apply v p).symm.trans h0)
  rw [nonzeroProduct, Poly.value_mul, Poly.value_mul, mul_ne_zero_iff, hprod, mul_ne_zero_iff,
    div_ne_zero_iff]

/-- Where the leaf is reached, all that is in the radical vanishes. -/
theorem value_eq_zero_of_mem_radical {p : Poly} (hp : p ∈ leaf.zeroIdeal.radical)
    (h : leaf.assumptions.Holds v) : p.value v = 0 := by
  have hker : leaf.zeroIdeal ≤ RingHom.ker (Poly.valueHom v) := by
    apply Ideal.span_le.2
    intro q hq
    rw [SetLike.mem_coe, RingHom.mem_ker, Poly.valueHom_apply]
    exact h.zeros q hq
  obtain ⟨n, hn⟩ := hp
  have hpow := hker hn
  rw [RingHom.mem_ker, map_pow, Poly.valueHom_apply] at hpow
  exact eq_zero_of_pow_eq_zero hpow

end Value

/-- A leaf has a value other than zero at some valuation in some algebraically closed field
of characteristic zero that its assumptions hold at. -/
def Reached (leaf : Leaf) : Prop :=
  ∃ (K : Type) (_ : Field K) (_ : IsAlgClosed K) (_ : CharZero K) (v : String → K),
    leaf.assumptions.Holds v ∧ leaf.num.value v / leaf.den.value v ≠ 0

/-- The polynomials outside a prime ideal are those that do not vanish at some valuation. -/
theorem exists_value_eq_zero_iff_mem (P : Ideal Poly) [P.IsPrime] :
    ∃ (K : Type) (_ : Field K) (_ : IsAlgClosed K) (_ : CharZero K) (v : String → K),
      ∀ p : Poly, p.value v = 0 ↔ p ∈ P := by
  let K := AlgebraicClosure (FractionRing (Poly ⧸ P))
  let f : Poly →+* K := (algebraMap (FractionRing (Poly ⧸ P)) K).comp
    ((algebraMap (Poly ⧸ P) (FractionRing (Poly ⧸ P))).comp (Ideal.Quotient.mk P))
  have hchar : CharZero K :=
    charZero_of_injective_ringHom (f := f.comp Poly.constantHom) (RingHom.injective _)
  refine ⟨K, inferInstance, inferInstance, hchar, fun x => f (.var x), fun p => ?_⟩
  rw [← Poly.apply_eq_value f p, RingHom.comp_apply, RingHom.comp_apply,
    FaithfulSMul.algebraMap_eq_zero_iff, FaithfulSMul.algebraMap_eq_zero_iff,
    Ideal.Quotient.eq_zero_iff_mem]

/-- A leaf is reached exactly when its assumptions are consistent with it not being
zero. -/
theorem consistent_iff (leaf : Leaf) : leaf.Consistent ↔ leaf.Reached := by
  constructor
  · intro h
    rw [Consistent, Ideal.radical_eq_sInf, Ideal.mem_sInf] at h
    push Not at h
    obtain ⟨P, ⟨hle, hP⟩, hmem⟩ := h
    obtain ⟨K, hfield, hclosed, hchar, v, hv⟩ := exists_value_eq_zero_iff_mem P
    rw [← hv, ← Ne, value_nonzeroProduct_ne_zero_iff] at hmem
    refine ⟨K, hfield, hclosed, hchar, v, ⟨fun p hp => ?_, hmem.2⟩, hmem.1⟩
    exact (hv p).2 (hle (Ideal.subset_span hp))
  · rintro ⟨K, hfield, hclosed, hchar, v, hholds, hvalue⟩ hmem
    exact value_nonzeroProduct_ne_zero_iff.2 ⟨hvalue, hholds.nonzeros⟩
      (value_eq_zero_of_mem_radical hmem hholds)

end Leaf

/-! ## Leaves reached without a condition assumed to be zero -/

namespace Poly

theorem degreeIn_substituteZero_le (p : Poly) (w x : String) :
    (p.substituteZero w).degreeIn x ≤ p.degreeIn x := by
  apply degreeIn_le_iff.2
  intro m hm
  rw [coeff_substituteZero] at hm
  split at hm
  · exact exponent_le_degreeIn hm x
  · exact absurd rfl hm

theorem degreeIn_substituteZero_self (p : Poly) (w : String) :
    (p.substituteZero w).degreeIn w = 0 := by
  refine Nat.le_zero.1 (degreeIn_le_iff.2 fun m hm => ?_)
  rw [coeff_substituteZero] at hm
  split at hm
  · next h => exact h.le
  · exact absurd rfl hm

theorem degreeIn_substituteZeros_le (p : Poly) (ws : List String) (x : String) :
    (p.substituteZeros ws).degreeIn x ≤ p.degreeIn x := by
  induction ws generalizing p with
  | nil => exact le_rfl
  | cons w ws ih => exact (ih (p.substituteZero w)).trans (degreeIn_substituteZero_le p w x)

theorem degreeIn_substituteZeros {ws : List String} {w : String} (h : w ∈ ws) (p : Poly) :
    (p.substituteZeros ws).degreeIn w = 0 := by
  induction ws generalizing p with
  | nil => cases h
  | cons x ws ih =>
    rcases List.mem_cons.1 h with rfl | h
    · have hrest := degreeIn_substituteZeros_le (p.substituteZero w) ws w
      rw [degreeIn_substituteZero_self] at hrest
      exact Nat.le_zero.1 hrest
    · exact ih h (p.substituteZero x)

theorem dvd_of_mem_factors {p f : Poly} (h : f ∈ p.factors) : f ∣ p := by
  unfold factors at h
  split at h
  · rw [List.mem_singleton.1 h]
  · next hconst =>
    rw [Bool.not_eq_true] at hconst
    obtain ⟨g, hg, rfl⟩ := List.mem_map.1 h
    exact dvd_of_mem_factorize hconst hg

/-- There is a valuation with chosen zeros at which no other polynomial than zero
vanishes. -/
theorem exists_generic_valuation (ws : List String) :
    ∃ (K : Type) (_ : Field K) (_ : IsAlgClosed K) (_ : CharZero K) (v : String → K),
      (∀ w ∈ ws, v w = 0) ∧
      ∀ p : Poly, p ≠ 0 → (∀ w ∈ ws, p.degreeIn w = 0) → p.value v ≠ 0 := by
  obtain ⟨K, hfield, hclosed, hchar, v, hv⟩ := Leaf.exists_value_eq_zero_iff_mem ⊥
  refine ⟨K, hfield, hclosed, hchar, fun x => if x ∈ ws then 0 else v x,
    fun w hw => if_pos hw, fun p hp hfree h0 => hp ?_⟩
  rw [← Ideal.mem_bot, ← hv, ← h0]
  apply value_congr
  intro x hx
  rw [if_neg fun hmem => hx (hfree x hmem)]

end Poly

namespace Assumptions

/-- What is assumed not to be zero is not, once the variables assumed to be zero are. -/
def Reduced (a : Assumptions) : Prop :=
  ∀ p, a.nonzeros.contains p = true → p ≠ 0 ∧ ∀ w ∈ a.zeroVars, p.degreeIn w = 0

/-- A variable that is left of no factor is not left of their product. -/
theorem degreeIn_evalFactors {a : Assumptions} {w : String} (divisors : List Poly) {acc : Poly}
    (hacc : acc.degreeIn w = 0) {fs : List Poly}
    (hfs : ∀ f ∈ fs, (f.substituteZeros a.zeroVars).degreeIn w = 0) :
    (a.evalFactors divisors acc fs).degreeIn w = 0 := by
  induction fs generalizing acc with
  | nil => exact hacc
  | cons f fs ih =>
    obtain ⟨hf, hfs⟩ := List.forall_mem_cons.1 hfs
    unfold evalFactors
    split
    · exact ih hacc hfs
    · dsimp only
      split
      · rfl
      · refine ih (Nat.le_zero.1 ((Poly.degreeIn_mul_le _ _ _).trans ?_)) hfs
        rw [hacc, hf]

/-- No variable that is assumed to be zero is left. -/
theorem degreeIn_evalPoly {a : Assumptions} {w : String} (hw : w ∈ a.zeroVars) (p : Poly) :
    (a.evalPoly p).degreeIn w = 0 := by
  unfold evalPoly
  split
  · next hconst => exact Poly.isConstant_iff_degreeIn.1 hconst w
  · exact degreeIn_evalFactors _ (Poly.degreeIn_one w) fun f _ => Poly.degreeIn_substituteZeros hw f

theorem Reduced.withNonzeros {a : Assumptions} (h : a.Reduced) {c : Poly}
    (hc : a.evalPoly c ≠ 0) : (a.withNonzeros (a.evalPoly c).factors).Reduced := by
  intro p hp
  rcases contains_nonzeros_withNonzeros.1 hp with hp | hp
  · have hdvd := Poly.dvd_of_mem_factors hp
    refine ⟨ne_zero_of_dvd_ne_zero hc hdvd, fun w hw => ?_⟩
    exact Poly.degreeIn_eq_zero_of_dvd hc (degreeIn_evalPoly (a := a) hw c) hdvd
  · exact h p hp

end Assumptions

namespace Form

theorem contains_zeros_of_mem_leaves {f : Form} {a : Assumptions} {leaf : Leaf}
    (hleaf : leaf ∈ f.leaves a) {p : Poly} (hp : a.zeros.contains p = true) :
    leaf.assumptions.zeros.contains p = true := by
  induction f generalizing a with
  | poly q => rwa [List.mem_singleton.1 hleaf]
  | frac n d => rwa [List.mem_singleton.1 hleaf]
  | cond c t e iht ihe =>
    rw [leaves] at hleaf
    split at hleaf
    · exact ihe hleaf hp
    · rcases List.mem_append.1 hleaf with hleaf | hleaf
      · exact iht hleaf hp
      · split at hleaf
        · cases hleaf
        · obtain ⟨r, -, hleaf⟩ := List.mem_flatMap.1 hleaf
          exact ihe hleaf (Assumptions.contains_zeros_withZero.2 (Or.inr hp))

theorem reduced_of_mem_leaves {f : Form} {a : Assumptions} {leaf : Leaf}
    (hleaf : leaf ∈ f.leaves a) (hzeros : leaf.assumptions.zeros = a.zeros) (h : a.Reduced) :
    leaf.assumptions.Reduced := by
  induction f generalizing a with
  | poly q => rwa [List.mem_singleton.1 hleaf]
  | frac n d => rwa [List.mem_singleton.1 hleaf]
  | cond c t e iht ihe =>
    rw [leaves] at hleaf
    split at hleaf
    · exact ihe hleaf hzeros h
    · next hopen =>
      rw [Bool.or_eq_true, not_or] at hopen
      rcases List.mem_append.1 hleaf with hleaf | hleaf
      · exact iht hleaf hzeros (h.withNonzeros fun h0 => hopen.1 (Poly.isZero_iff.2 h0))
      · split at hleaf
        · cases hleaf
        · obtain ⟨r, hr, hleaf⟩ := List.mem_flatMap.1 hleaf
          -- an open root was not assumed to be zero before, and it is now
          have hmem := contains_zeros_of_mem_leaves hleaf
            (Assumptions.contains_zeros_withZero.2 (Or.inl rfl))
          rw [hzeros] at hmem
          exact absurd (List.any_eq_true.2 ⟨r, (List.mem_filter.1 hr).1, hmem⟩) hopen.2

/-- A leaf that is not made zero is reached if only variables are assumed to be zero
there, and these from the start. -/
theorem consistent_of_zeros_eq {f : Form} {a : Assumptions} {leaf : Leaf}
    (hleaf : leaf ∈ f.leaves a) (hvanishes : ¬ leaf.Vanishes)
    (hzeros : leaf.assumptions.zeros = a.zeros) (hreduced : a.Reduced)
    (hvars : ∀ p, a.zeros.contains p = true → ∃ w, p = .var w) : leaf.Consistent := by
  have hreduced' := reduced_of_mem_leaves hleaf hzeros hreduced
  obtain ⟨K, hfield, hclosed, hchar, v, hzero, hne⟩ :=
    Poly.exists_generic_valuation leaf.assumptions.zeroVars
  have hholds : leaf.assumptions.Holds v := by
    refine ⟨fun p hp => ?_, fun p hp => hne p (hreduced' p hp).1 (hreduced' p hp).2⟩
    obtain ⟨w, rfl⟩ := hvars p (by rwa [hzeros] at hp)
    rw [Poly.value_var]
    exact hzero w (Assumptions.mem_zeroVars_iff.2 hp)
  have hpart {p : Poly} (hp : leaf.assumptions.evalPoly p ≠ 0) : p.value v ≠ 0 := by
    rw [Ne, ← Assumptions.value_evalPoly_eq_zero_iff hholds]
    exact hne _ hp fun w hw => Assumptions.degreeIn_evalPoly hw p
  rw [Leaf.Vanishes, not_or] at hvanishes
  refine leaf.consistent_iff.2 ⟨K, hfield, hclosed, hchar, v, hholds, ?_⟩
  exact div_ne_zero (hpart hvanishes.1) (hpart hvanishes.2)

end Form
end Meadow
