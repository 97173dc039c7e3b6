import Mathlib
import Meadow.Form.Eval
import Meadow.Proofs.Poly.Factorization

set_option autoImplicit false

/-!
# Assumptions and valuations

Under assumptions that hold at a valuation, a polynomial and what is left of it by
`Assumptions.evalPoly` vanish together (`Assumptions.value_evalPoly_eq_zero_iff`).  The
values themselves differ by the factors that were dropped.
-/

namespace Meadow

variable {K : Type*} [Field K] {v : String → K}

theorem Poly.substituteZeros_cons (p : Poly) (w : String) (ws : List String) :
    p.substituteZeros (w :: ws) = (p.substituteZero w).substituteZeros ws := rfl

namespace Assumptions

/-- The assumptions are true at a valuation. -/
structure Holds (v : String → K) (a : Assumptions) : Prop where
  zeros : ∀ p, a.zeros.contains p = true → p.value v = 0
  nonzeros : ∀ p, a.nonzeros.contains p = true → p.value v ≠ 0

theorem contains_zeros_withZero {a : Assumptions} {r p : Poly} :
    (a.withZero r).zeros.contains p = true ↔ r = p ∨ a.zeros.contains p = true := by
  rw [withZero, FinSet.contains_insert, Bool.or_eq_true, decide_eq_true_eq]

theorem contains_nonzeros_withNonzeros {a : Assumptions} {ps : List Poly} {p : Poly} :
    (a.withNonzeros ps).nonzeros.contains p = true ↔ p ∈ ps ∨ a.nonzeros.contains p = true := by
  rw [withNonzeros, FinSet.contains_insertAll, Bool.or_eq_true, decide_eq_true_eq]

theorem holds_withZero_iff {a : Assumptions} {r : Poly} :
    (a.withZero r).Holds v ↔ a.Holds v ∧ r.value v = 0 := by
  constructor
  · intro h
    exact ⟨⟨fun p hp => h.zeros p (contains_zeros_withZero.2 (Or.inr hp)), h.nonzeros⟩,
      h.zeros r (contains_zeros_withZero.2 (Or.inl rfl))⟩
  · rintro ⟨h, hr⟩
    refine ⟨fun p hp => ?_, h.nonzeros⟩
    rcases contains_zeros_withZero.1 hp with rfl | hp
    · exact hr
    · exact h.zeros p hp

theorem holds_withNonzeros_iff {a : Assumptions} {ps : List Poly} :
    (a.withNonzeros ps).Holds v ↔ a.Holds v ∧ ∀ p ∈ ps, p.value v ≠ 0 := by
  constructor
  · intro h
    exact ⟨⟨h.zeros, fun p hp => h.nonzeros p (contains_nonzeros_withNonzeros.2 (Or.inr hp))⟩,
      fun p hp => h.nonzeros p (contains_nonzeros_withNonzeros.2 (Or.inl hp))⟩
  · rintro ⟨h, hps⟩
    refine ⟨h.zeros, fun p hp => ?_⟩
    rcases contains_nonzeros_withNonzeros.1 hp with hp | hp
    · exact hps p hp
    · exact h.nonzeros p hp

/-! ## What is assumed to be zero -/

theorem mem_zeroVars_iff {a : Assumptions} {w : String} :
    w ∈ a.zeroVars ↔ a.zeros.contains (.var w) = true := by
  rw [zeroVars, List.mem_filterMap, ← FinSet.mem_toList_iff]
  constructor
  · rintro ⟨p, hp, hpw⟩
    rwa [Poly.asVariable?_eq_some_iff.1 hpw] at hp
  · exact fun h => ⟨.var w, h, Poly.asVariable?_eq_some_iff.2 rfl⟩

theorem mem_zeroDivisors_iff {a : Assumptions} {d : Poly} :
    d ∈ a.zeroDivisors ↔ d.isConstant = false ∧ ∃ z ∈ a.zeros.toList,
      z.asVariable? = Option.none ∧ z.substituteZeros a.zeroVars = d := by
  simp [zeroDivisors, and_comm, and_assoc]

theorem isZero_or_any_divExact?_iff {f : Poly} {divisors : List Poly} :
    (f.isZero || divisors.any fun d => (f.divExact? d).isSome) = true ↔
      f = 0 ∨ ∃ d ∈ divisors, d ∣ f := by
  have hdivides {d : Poly} : (f.divExact? d).isSome = true ↔ d ≠ 0 ∧ d ∣ f := by
    rw [Option.isSome_iff_ne_none, Ne, Poly.divExact?_eq_none_iff, not_or, not_not]
  rw [Bool.or_eq_true, Poly.isZero_iff, List.any_eq_true]
  constructor
  · rintro (hf | ⟨d, hd, hquotient⟩)
    · exact Or.inl hf
    · exact Or.inr ⟨d, hd, (hdivides.1 hquotient).2⟩
  · rintro (hf | ⟨d, hd, hdvd⟩)
    · exact Or.inl hf
    · by_cases h0 : d = 0
      · exact Or.inl (zero_dvd_iff.1 (h0 ▸ hdvd))
      · exact Or.inr ⟨d, hd, hdivides.2 ⟨h0, hdvd⟩⟩

/-! ## Evaluating a polynomial -/

variable [CharZero K]

theorem Holds.value_of_mem_zeroVars {a : Assumptions} (h : a.Holds v) {w : String}
    (hw : w ∈ a.zeroVars) : v w = 0 := by
  rw [← Poly.value_var v]
  exact h.zeros (.var w) (mem_zeroVars_iff.1 hw)

omit [CharZero K] in
theorem value_substituteZeros {vs : List String} (h : ∀ w ∈ vs, v w = 0) (p : Poly) :
    (p.substituteZeros vs).value v = p.value v := by
  induction vs generalizing p with
  | nil => rfl
  | cons w vs ih =>
    rw [Poly.substituteZeros_cons, ih fun x hx => h x (List.mem_cons_of_mem w hx),
      Poly.value_substituteZero v (h w List.mem_cons_self)]

theorem Holds.value_of_mem_zeroDivisors {a : Assumptions} (h : a.Holds v) {d : Poly}
    (hd : d ∈ a.zeroDivisors) : d.value v = 0 := by
  obtain ⟨-, p, hp, -, rfl⟩ := mem_zeroDivisors_iff.1 hd
  rw [value_substituteZeros fun w hw => h.value_of_mem_zeroVars hw]
  exact h.zeros p (FinSet.mem_toList_iff.1 hp)

theorem value_evalFactors_eq_zero_iff {a : Assumptions} (h : a.Holds v) {divisors : List Poly}
    (hdivisors : ∀ d ∈ divisors, d.value v = 0) (acc : Poly) (fs : List Poly) :
    (a.evalFactors divisors acc fs).value v = 0 ↔
      acc.value v = 0 ∨ ∃ f ∈ fs, f.value v = 0 := by
  induction fs generalizing acc with
  | nil => simp [evalFactors]
  | cons f fs ih =>
    have hsubstitute : (f.substituteZeros a.zeroVars).value v = f.value v :=
      value_substituteZeros (fun w hw => h.value_of_mem_zeroVars hw) f
    unfold evalFactors
    split
    · next hf =>
      rw [ih, List.exists_mem_cons_iff, or_iff_right (h.nonzeros f hf)]
    · dsimp only
      split
      · next hzero =>
        have hf : f.value v = 0 := by
          rw [← hsubstitute]
          rcases isZero_or_any_divExact?_iff.1 hzero with h0 | ⟨d, hd, hdvd⟩
          · rw [h0, Poly.value_zero]
          · exact Poly.value_eq_zero_of_dvd v hdvd (hdivisors d hd)
        exact iff_of_true (Poly.value_zero v) (Or.inr ⟨f, List.mem_cons_self, hf⟩)
      · rw [ih, Poly.mul_def, Poly.value_mul, hsubstitute, mul_eq_zero, List.exists_mem_cons_iff,
          or_assoc]

/-- Under assumptions that hold, a polynomial and its evaluation vanish together. -/
theorem value_evalPoly_eq_zero_iff {a : Assumptions} (h : a.Holds v) (p : Poly) :
    (a.evalPoly p).value v = 0 ↔ p.value v = 0 := by
  unfold evalPoly
  split
  · rfl
  · rw [value_evalFactors_eq_zero_iff h (fun d hd => h.value_of_mem_zeroDivisors hd),
      Poly.one_def, Poly.value_one, or_iff_right one_ne_zero,
      ← Poly.value_eq_zero_iff_exists_factor]

/-- Evaluation keeps the zeros of a polynomial: where all that is assumed to be zero vanishes
and nothing that is assumed not to be zero does, the evaluation vanishes exactly if the
polynomial does.  Nothing is asked of the assumptions, which may be constants, have common
factors or contradict each other elsewhere. -/
theorem evalPoly_vanishes_iff (p : Poly) (a : Assumptions) (v : String → K)
    (hzeros : ∀ z ∈ a.zeros.toList, z.value v = 0)
    (hnonzeros : ∀ n ∈ a.nonzeros.toList, n.value v ≠ 0) :
    (a.evalPoly p).value v = 0 ↔ p.value v = 0 := by
  have hholds : a.Holds v := ⟨fun z hz => hzeros z (FinSet.mem_toList_iff.2 hz),
    fun n hn => hnonzeros n (FinSet.mem_toList_iff.2 hn)⟩
  exact value_evalPoly_eq_zero_iff hholds p

end Assumptions
end Meadow
