import Mathlib
import Meadow.Proofs.Poly.CanonicalGcd

set_option autoImplicit false

/-!
# One canonical associate

Among the rational multiples of a polynomial other than zero there is exactly one with
coprime integer coefficients and a positive leading one.  So two polynomials have the same
canonical associate exactly when each is a multiple of the other by a rational other than
zero (`Poly.normalized_eq_iff`), and products of canonical associates are canonical.
-/

namespace Meadow.Poly

variable {p q : Poly}

/-- Associates are multiples by a rational other than zero. -/
theorem associated_iff_exists_scale : Associated p q ↔ ∃ c : ℚ, c ≠ 0 ∧ q = p.scale c := by
  constructor
  · rintro ⟨u, rfl⟩
    obtain ⟨hconst, hne⟩ := isUnit_iff.1 u.isUnit
    obtain ⟨c, hc⟩ := isConstant_iff.1 hconst
    refine ⟨c, fun h0 => hne ?_, ?_⟩
    · rw [hc, h0, constant_zero]
    · rw [hc, scale_eq_mul, mul_comm]
  · rintro ⟨c, hc, rfl⟩
    rw [scale_eq_mul]
    exact (associated_unit_mul_left p _ (isUnit_constant hc)).symm

theorem normalized_eq_iff_associated : p.normalized = q.normalized ↔ Associated p q := by
  constructor
  · intro h
    have hq := (associated_normalized q).symm
    rw [← h] at hq
    exact (associated_normalized p).trans hq
  · exact normalized_eq_of_associated

/-- Two polynomials have the same canonical associate exactly when they are rational
multiples of each other. -/
theorem normalized_eq_iff :
    p.normalized = q.normalized ↔ ∃ c : ℚ, c ≠ 0 ∧ q = p.scale c :=
  normalized_eq_iff_associated.trans associated_iff_exists_scale

theorem Canonical.ne_zero (h : p.Canonical) : p ≠ 0 := by
  rintro rfl
  exact absurd h.pos (lt_irrefl 0)

/-- The canonical polynomials are those other than zero that normalizing leaves alone. -/
theorem canonical_iff_normalized_eq : p.Canonical ↔ p ≠ 0 ∧ p.normalized = p := by
  constructor
  · intro h
    have hassoc := (associated_normalized p).symm
    exact ⟨h.ne_zero, (canonical_normalized h.ne_zero).eq_of_associated h hassoc⟩
  · rintro ⟨h0, h⟩
    rw [← h]
    exact canonical_normalized h0

theorem normalized_mul_normalized (p q : Poly) :
    (p.normalized * q.normalized).normalized = p.normalized * q.normalized := by
  by_cases hp : p = 0
  · rw [hp, normalized_zero, zero_mul, normalized_zero]
  by_cases hq : q = 0
  · rw [hq, normalized_zero, mul_zero, normalized_zero]
  have hmul := (canonical_normalized hp).mul (canonical_normalized hq)
  exact (canonical_iff_normalized_eq.1 hmul).2

/-- The canonical associate of a polynomial other than zero is a rational multiple of it with
coprime integer coefficients, the leading one positive, and it is the only such multiple.
So normalizing twice is normalizing once, and polynomials with the same canonical associate
are the rational multiples of each other.  The product of two canonical associates is its
own. -/
theorem canonical_associate (hp : p ≠ 0) :
    (∃ c : ℚ, c ≠ 0 ∧ p.normalized = p.scale c) ∧ p.normalized.Canonical ∧
      (∀ c : ℚ, (p.scale c).Canonical → p.scale c = p.normalized) ∧
      p.normalized.normalized = p.normalized ∧
      (∀ q : Poly, p.normalized = q.normalized ↔ ∃ c : ℚ, c ≠ 0 ∧ q = p.scale c) ∧
      ∀ q : Poly, (p.normalized.mul q.normalized).normalized = p.normalized.mul q.normalized := by
  refine ⟨associated_iff_exists_scale.1 (associated_normalized p), canonical_normalized hp,
    fun c hc => ?_, normalized_normalized p, fun q => normalized_eq_iff,
    normalized_mul_normalized p⟩
  have hc0 : c ≠ 0 := by
    rintro rfl
    refine hc.ne_zero ?_
    rw [scale_eq_mul, constant_zero, zero_mul]
  rw [← (canonical_iff_normalized_eq.1 hc).2]
  exact (normalized_eq_iff.2 ⟨c, hc0, rfl⟩).symm

end Meadow.Poly
