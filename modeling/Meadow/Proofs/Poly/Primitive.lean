import Mathlib
import Meadow.Proofs.Poly.Degree

set_option autoImplicit false

/-!
# Primitive polynomials

A polynomial is primitive over a variable when only constants among the
polynomials free of the variable divide it.  What a primitive polynomial divides
up to a factor free of the variable, it divides (`PrimitiveIn.dvd_of_dvd_mul`), and
a factor free of the variable passes a primitive one by
(`PrimitiveIn.dvd_left_of_dvd_mul`).  So greatest common divisors are found for the
contents and the primitive parts apart (`IsGcd.mul`).
-/

namespace Meadow

namespace Poly

/-- Only units among the polynomials free of `w` divide `p`. -/
def PrimitiveIn (w : String) (p : Poly) : Prop :=
  ∀ d : Poly, d.degreeIn w = 0 → d ∣ p → IsUnit d

/-- The divisors of `g` are the common divisors of `a` and `b`. -/
def IsGcd (g a b : Poly) : Prop := ∀ d, d ∣ g ↔ d ∣ a ∧ d ∣ b

theorem degreeIn_eq_zero_of_dvd {p q : Poly} {w : String} (hq : q ≠ 0) (hfree : q.degreeIn w = 0)
    (h : p ∣ q) : p.degreeIn w = 0 := by
  have hle := degreeIn_le_of_dvd hq h w
  omega

/-- A polynomial that is neither zero nor constant has a prime divisor. -/
theorem exists_prime_dvd {p : Poly} (h0 : p ≠ 0) (hu : ¬ IsUnit p) : ∃ r, Prime r ∧ r ∣ p := by
  obtain ⟨r, hr, hdvd⟩ := WfDvdMonoid.exists_irreducible_factor hu h0
  exact ⟨r, UniqueFactorizationMonoid.irreducible_iff_prime.1 hr, hdvd⟩

namespace PrimitiveIn

variable {w : String} {p q c d : Poly}

theorem ne_zero (h : PrimitiveIn w p) : p ≠ 0 := by
  rintro rfl
  exact not_isUnit_zero (h 0 rfl dvd_rfl)

theorem of_dvd (h : PrimitiveIn w p) (hd : d ∣ p) : PrimitiveIn w d := fun e he hed =>
  h e he (hed.trans hd)

/-- It suffices to look at primes. -/
theorem of_forall_prime (h0 : p ≠ 0) (h : ∀ r, Prime r → r ∣ p → r.degreeIn w ≠ 0) :
    PrimitiveIn w p := by
  intro d hd hdp
  by_contra hu
  have hd0 : d ≠ 0 := ne_zero_of_dvd_ne_zero h0 hdp
  obtain ⟨r, hr, hrd⟩ := exists_prime_dvd hd0 hu
  exact h r hr (hrd.trans hdp) (degreeIn_eq_zero_of_dvd hd0 hd hrd)

theorem degreeIn_ne_zero_of_prime (h : PrimitiveIn w p) {r : Poly} (hr : Prime r) (hrp : r ∣ p) :
    r.degreeIn w ≠ 0 := fun h0 => hr.not_isUnit (h r h0 hrp)

theorem isUnit_of_degreeIn_eq_zero (h : PrimitiveIn w p) (hp : p.degreeIn w = 0) : IsUnit p :=
  h p hp dvd_rfl

/-- What a primitive polynomial divides up to a factor free of the variable, it
divides. -/
theorem dvd_of_dvd_mul (h : PrimitiveIn w p) (hc0 : c ≠ 0) (hc : c.degreeIn w = 0)
    (hdvd : p ∣ c * q) : p ∣ q := by
  induction c using UniqueFactorizationMonoid.induction_on_prime with
  | h₁ => exact absurd rfl hc0
  | h₂ c hu => exact (hu.dvd_mul_left).1 hdvd
  | h₃ c r hcne hr ih =>
    have hfree {e : Poly} := degreeIn_eq_zero_of_dvd (p := e) hc0 hc
    refine ih hcne (hfree (Dvd.intro_left r rfl)) ?_
    obtain ⟨s, hs⟩ := hdvd
    have hrs : r ∣ p * s := ⟨c * q, by rw [← hs, mul_assoc]⟩
    rcases hr.dvd_or_dvd hrs with hrp | hrs
    · exact absurd (hfree (Dvd.intro c rfl)) (h.degreeIn_ne_zero_of_prime hr hrp)
    · obtain ⟨s, rfl⟩ := hrs
      refine ⟨s, mul_left_cancel₀ hr.ne_zero ?_⟩
      rw [← mul_assoc, hs]
      ring

/-- A factor free of the variable passes a primitive polynomial by. -/
theorem dvd_left_of_dvd_mul (h : PrimitiveIn w p) (hd0 : d ≠ 0) (hd : d.degreeIn w = 0)
    (hdvd : d ∣ c * p) : d ∣ c := by
  induction d using UniqueFactorizationMonoid.induction_on_prime generalizing c with
  | h₁ => exact absurd rfl hd0
  | h₂ d hu => exact hu.dvd
  | h₃ d r hdne hr ih =>
    have hfree {e : Poly} := degreeIn_eq_zero_of_dvd (p := e) hd0 hd
    have hrdvd : r ∣ c * p := (Dvd.intro d rfl).trans hdvd
    rcases hr.dvd_or_dvd hrdvd with hrc | hrp
    · obtain ⟨c, rfl⟩ := hrc
      rw [mul_assoc] at hdvd
      have hdc := (mul_dvd_mul_iff_left hr.ne_zero).1 hdvd
      exact mul_dvd_mul_left r (ih hdne (hfree (Dvd.intro_left r rfl)) hdc)
    · exact absurd (hfree (Dvd.intro d rfl)) (h.degreeIn_ne_zero_of_prime hr hrp)

theorem mul (hp : PrimitiveIn w p) (hq : PrimitiveIn w q) : PrimitiveIn w (p * q) := by
  apply of_forall_prime (mul_ne_zero hp.ne_zero hq.ne_zero)
  intro r hr hdvd
  rcases hr.dvd_or_dvd hdvd with h | h
  · exact hp.degreeIn_ne_zero_of_prime hr h
  · exact hq.degreeIn_ne_zero_of_prime hr h

end PrimitiveIn

/-- A prime with the variable in it is primitive over the variable. -/
theorem primitiveIn_of_prime {r : Poly} {w : String} (hr : Prime r) (h : r.degreeIn w ≠ 0) :
    PrimitiveIn w r := by
  apply PrimitiveIn.of_forall_prime hr.ne_zero
  intro s hs hsr
  have hassoc := hs.associated_of_dvd hr hsr
  intro h0
  exact h (degreeIn_eq_zero_of_dvd hs.ne_zero h0 hassoc.symm.dvd)

/-- Every polynomial but zero is a content times a primitive part. -/
theorem exists_content_mul_primitive {p : Poly} (w : String) (hp : p ≠ 0) :
    ∃ c q, p = c * q ∧ c.degreeIn w = 0 ∧ PrimitiveIn w q := by
  induction p using UniqueFactorizationMonoid.induction_on_prime with
  | h₁ => exact absurd rfl hp
  | h₂ p hu =>
    refine ⟨p, 1, (mul_one p).symm, ?_, fun d _ hd => isUnit_of_dvd_one hd⟩
    exact isConstant_iff_degreeIn.1 (isUnit_iff.1 hu).1 w
  | h₃ p r hne hr ih =>
    obtain ⟨c, q, rfl, hc, hq⟩ := ih hne
    by_cases h : r.degreeIn w = 0
    · refine ⟨r * c, q, by ring, ?_, hq⟩
      rw [degreeIn_mul hr.ne_zero (left_ne_zero_of_mul hne), h, hc]
    · exact ⟨c, r * q, by ring, hc, (primitiveIn_of_prime hr h).mul hq⟩

/-! ## Greatest common divisors -/

namespace IsGcd

variable {g h a b : Poly}

theorem symm (hg : IsGcd g a b) : IsGcd g b a := fun d => (hg d).trans and_comm

theorem dvd_left (hg : IsGcd g a b) : g ∣ a := ((hg g).1 dvd_rfl).1

theorem dvd_right (hg : IsGcd g a b) : g ∣ b := ((hg g).1 dvd_rfl).2

theorem of_associated (hg : IsGcd g a b) (hassoc : Associated g h) : IsGcd h a b := fun d =>
  hassoc.symm.dvd_iff_dvd_right.trans (hg d)

/-- Contents and primitive parts have their greatest common divisors apart. -/
theorem mul {w : String} {c d p q : Poly} (hg : IsGcd g c d) (hh : IsGcd h p q)
    (hc : c.degreeIn w = 0) (hc0 : c ≠ 0) (hd : d.degreeIn w = 0) (hd0 : d ≠ 0)
    (hp : PrimitiveIn w p) (hq : PrimitiveIn w q) : IsGcd (g * h) (c * p) (d * q) := by
  intro e
  constructor
  · intro he
    exact ⟨he.trans (mul_dvd_mul hg.dvd_left hh.dvd_left),
      he.trans (mul_dvd_mul hg.dvd_right hh.dvd_right)⟩
  · rintro ⟨hep, heq⟩
    have he0 : e ≠ 0 := ne_zero_of_dvd_ne_zero (mul_ne_zero hc0 hp.ne_zero) hep
    obtain ⟨k, r, rfl, hk, hr⟩ := exists_content_mul_primitive w he0
    have hk0 := left_ne_zero_of_mul he0
    have hkr : k ∣ k * r := Dvd.intro r rfl
    have hrk : r ∣ k * r := Dvd.intro_left k rfl
    refine mul_dvd_mul ((hg k).2 ⟨?_, ?_⟩) ((hh r).2 ⟨?_, ?_⟩)
    · exact hp.dvd_left_of_dvd_mul hk0 hk (hkr.trans hep)
    · exact hq.dvd_left_of_dvd_mul hk0 hk (hkr.trans heq)
    · exact hr.dvd_of_dvd_mul hc0 hc (hrk.trans hep)
    · exact hr.dvd_of_dvd_mul hd0 hd (hrk.trans heq)

end IsGcd

end Poly
end Meadow
