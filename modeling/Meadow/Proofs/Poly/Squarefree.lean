import Mathlib
import Meadow.Poly.Squarefree
import Meadow.Proofs.Poly.Gcd

set_option autoImplicit false

/-!
# Squarefree decomposition

The powers of the squarefree parts multiply to the polynomial
(`Poly.associated_squarefreeParts`), and the parts themselves to a squarefree one
(`Poly.squarefree_prod_squarefreeParts`).  A round of Yun's method stands for a polynomial
`q`, the product of what is still to be found, with `b` its logarithmic denominator:
`b * q' = q * c` for coprime `b` and `c`.  Dividing `q` by `b` keeps this.
-/

namespace Meadow

namespace Poly

/-! ## Derivatives -/

theorem monomial_mul_natCast (m : Monomial) (c : ℚ) (n : ℕ) :
    monomial m c * (n : Poly) = monomial m (c * n) := by
  have hcast : (n : Poly) = constant n := (map_natCast constantHom n).symm
  rw [hcast, constant, monomial_mul_monomial]
  congr 1
  exact Monomial.ext_exponent fun x => by simp

/-- Over its variable, the partial derivative is the derivative. -/
theorem inVar_derivative (w : String) (p : Poly) :
    inVar w (p.derivative w) = Polynomial.derivative (inVar w p) := by
  have main (ts : List (Monomial × ℚ)) :
      inVar w (ofTerms ((ts.filter fun t => t.1.exponent w != 0).map fun t =>
          ((t.1.without w).mul (.power w (t.1.exponent w - 1)), t.2 * (t.1.exponent w : ℚ))))
        = Polynomial.derivative ((ts.map fun t =>
          Polynomial.monomial (t.1.exponent w) (monomial (t.1.without w) t.2)).sum) := by
    rw [ofTerms_eq_sum]
    induction ts with
    | nil => simp
    | cons t ts ih =>
      rw [List.map_cons, List.sum_cons, Polynomial.derivative_add, ← ih,
        Polynomial.derivative_monomial, monomial_mul_natCast]
      by_cases h0 : t.1.exponent w = 0
      · rw [List.filter_cons_of_neg (by simp [h0]), h0, Nat.cast_zero, mul_zero]
        have hzero : monomial (t.1.without w) 0 = 0 := ext_coeff fun m => by
          rw [coeff_monomial, ← zero_def, coeff_zero, ite_self]
        rw [hzero, Polynomial.monomial_zero_right, zero_add]
      · rw [List.filter_cons_of_pos (by simp [h0]), List.map_cons, List.map_cons, List.sum_cons,
          map_add, inVar_monomial]
        congr 2
        · simp
        · congr 1
          apply Monomial.ext_exponent
          intro x
          rw [Monomial.exponent_without, Monomial.exponent_mul, Monomial.exponent_power,
            Monomial.exponent_without]
          by_cases hx : x = w
          · rw [if_pos hx, if_pos hx]
          · rw [if_neg hx, if_neg (Ne.symm hx), if_neg hx, add_zero]
  rw [inVar_eq_sum w p, ← main p.terms, derivative]

theorem derivative_mul (p q : Poly) (w : String) :
    (p * q).derivative w = p.derivative w * q + p * q.derivative w := by
  refine inVar_injective w ?_
  rw [inVar_derivative, map_mul, Polynomial.derivative_mul, map_add, map_mul, map_mul,
    inVar_derivative, inVar_derivative]

theorem derivative_pow (p : Poly) (n : ℕ) (w : String) :
    (p ^ (n + 1)).derivative w = (n + 1 : ℕ) * p ^ n * p.derivative w := by
  refine inVar_injective w ?_
  rw [inVar_derivative, map_pow, Polynomial.derivative_pow_succ, map_mul, map_mul, map_pow,
    map_natCast, inVar_derivative, Nat.cast_succ, map_add, map_one, map_natCast]

instance instCharZero : CharZero Poly :=
  charZero_of_injective_ringHom (f := constantHom) constant_injective

theorem degreeIn_eq_zero_of_derivative_eq_zero {p : Poly} {w : String}
    (h : p.derivative w = 0) : p.degreeIn w = 0 := by
  rw [← natDegree_inVar]
  refine Polynomial.derivative_eq_zero.1 ?_
  rw [← inVar_derivative, h, map_zero]

theorem degreeIn_derivative_lt {p : Poly} {w : String} (h : p.degreeIn w ≠ 0) :
    (p.derivative w).degreeIn w < p.degreeIn w := by
  rw [← natDegree_inVar] at h
  rw [← natDegree_inVar, ← natDegree_inVar, inVar_derivative]
  exact Polynomial.natDegree_derivative_lt h

/-! ## Rounds -/

/-- What two polynomials leave after their greatest common divisor is coprime. -/
theorem IsGcd.isRelPrime {a b d b' d' : Poly} (h : IsGcd a b d) (ha : a ≠ 0)
    (hb : b = b' * a) (hd : d = d' * a) : IsRelPrime b' d' := by
  intro e heb hed
  have hdvd : e * a ∣ 1 * a := by
    rw [one_mul, h, hb, hd]
    exact ⟨mul_dvd_mul_right heb a, mul_dvd_mul_right hed a⟩
  exact isUnit_of_dvd_one ((mul_dvd_mul_iff_right ha).1 hdvd)

/-- The state of a round: `q` is what the parts still to be found multiply to, and
`b * q' = q * c` in lowest terms. -/
structure IsRound (w : String) (q b c : Poly) : Prop where
  primitive : PrimitiveIn w q
  derivative_eq : b * q.derivative w = q * c
  isRelPrime : IsRelPrime b c
  ne_zero : b ≠ 0

namespace IsRound

variable {w : String} {q b c : Poly}

theorem dvd (h : IsRound w q b c) : b ∣ q :=
  h.isRelPrime.dvd_of_dvd_mul_right (Dvd.intro _ h.derivative_eq)

/-- Nothing is left once `b` is free of the variable. -/
theorem isUnit (h : IsRound w q b c) (hb : b.degreeIn w = 0) : IsUnit q := by
  refine h.primitive.isUnit_of_degreeIn_eq_zero ?_
  by_contra hpos
  have hq := h.primitive.ne_zero
  have hderivative : q.derivative w ≠ 0 := fun h0 =>
    hpos (degreeIn_eq_zero_of_derivative_eq_zero h0)
  have hc : c ≠ 0 := by
    rintro rfl
    exact mul_ne_zero h.ne_zero hderivative (by rw [h.derivative_eq, mul_zero])
  have hdeg : (b * q.derivative w).degreeIn w = (q * c).degreeIn w := by rw [h.derivative_eq]
  rw [degreeIn_mul h.ne_zero hderivative, degreeIn_mul hq hc, hb] at hdeg
  have hlt := degreeIn_derivative_lt hpos
  omega

/-- One round: `q` is divided by `b`, and the greatest common divisor leaves `b`. -/
theorem next {a b' c' q' : Poly} (h : IsRound w q b c) (hq : q = b * q')
    (ha : IsGcd a b (c - b.derivative w)) (hb : b = b' * a)
    (hc : c - b.derivative w = c' * a) : IsRound w q' b' c' := by
  have hb0 := h.ne_zero
  have ha0 : a ≠ 0 := ne_zero_of_dvd_ne_zero hb0 ha.dvd_left
  refine ⟨h.primitive.of_dvd ⟨b, by rw [hq, mul_comm]⟩, ?_, ha.isRelPrime ha0 hb hc, ?_⟩
  · have hlog := h.derivative_eq
    rw [hq, derivative_mul] at hlog
    have hcancel : b * (b' * a * q'.derivative w) = b * (q' * (c' * a)) := by
      rw [← hb, ← hc]
      linear_combination hlog
    have hcancel' := mul_left_cancel₀ hb0 hcancel
    refine mul_right_cancel₀ ha0 ?_
    linear_combination hcancel'
  · rintro rfl
    exact hb0 (by rw [hb, zero_mul])

/-- Both divisions of a round are exact, and lead to the next one. -/
theorem exists_divExact? (h : IsRound w q b c) :
    ∃ b' c' q', b.divExact? (gcd b (c - b.derivative w)) = some b' ∧
      (c - b.derivative w).divExact? (gcd b (c - b.derivative w)) = some c' ∧
      q = b * q' ∧ IsRound w q' b' c' := by
  have ha := isGcd_gcd b (c - b.derivative w)
  have ha0 : gcd b (c - b.derivative w) ≠ 0 := ne_zero_of_dvd_ne_zero h.ne_zero ha.dvd_left
  obtain ⟨b', hb⟩ := ha.dvd_left
  obtain ⟨c', hc⟩ := ha.dvd_right
  obtain ⟨q', hq⟩ := h.dvd
  rw [mul_comm] at hb hc
  exact ⟨b', c', q', divExact?_eq_some_iff.2 ⟨ha0, hb⟩, divExact?_eq_some_iff.2 ⟨ha0, hc⟩, hq,
    h.next hq ha hb hc⟩

/-- Either nothing is left, or a round splits the greatest common divisor off `b` and goes
on with the quotients. -/
theorem squarefreeRounds_eq (h : IsRound w q b c) (rounds k : ℕ) :
    (IsUnit q ∧ IsUnit b ∧ squarefreeRounds w (rounds + 1) k b (c - b.derivative w) = []) ∨
      ∃ a b' c' q', b = b' * a ∧ q = b * q' ∧ b.degreeIn w ≠ 0 ∧ IsRound w q' b' c' ∧
        (a.degreeIn w = 0 → IsUnit a) ∧
        squarefreeRounds w (rounds + 1) k b (c - b.derivative w)
          = (if a.degreeIn w = 0 then [] else [(a, k)])
            ++ squarefreeRounds w rounds (k + 1) b' (c' - b'.derivative w) := by
  rw [squarefreeRounds]
  split
  · next hfree =>
    have hunit := h.isUnit hfree
    exact Or.inl ⟨hunit, isUnit_of_dvd_unit h.dvd hunit, rfl⟩
  · next hfree =>
    obtain ⟨b', c', q', hb, hc, hq, hnext⟩ := h.exists_divExact?
    have hfactor := (divExact?_eq_some_iff.1 hb).2
    refine Or.inr ⟨gcd b (c - b.derivative w), b', c', q', hfactor, hq, hfree, hnext,
      fun hfree' => ?_, ?_⟩
    · exact (h.primitive.of_dvd h.dvd) _ hfree' (Dvd.intro_left b' hfactor.symm)
    · dsimp only
      rw [hb, hc]
      rfl

/-- No prime divides `b` twice: it would divide the denominator and the numerator of the
logarithmic derivative. -/
theorem squarefree (h : IsRound w q b c) : Squarefree b := by
  rw [squarefree_iff_irreducible_sq_not_dvd_of_ne_zero h.ne_zero]
  rintro r hr ⟨b', hb⟩
  have hprime : Prime r := hr.prime
  obtain ⟨s, hs, hrs⟩ := (FiniteMultiplicity.of_not_isUnit hr.not_isUnit
    h.primitive.ne_zero).exists_eq_pow_mul_and_not_dvd
  have hrb : r ∣ b := ⟨r * b', by rw [hb, mul_assoc]⟩
  obtain ⟨e, he⟩ : ∃ e, multiplicity r q = e + 1 := by
    refine Nat.exists_eq_succ_of_ne_zero fun h0 => hrs ?_
    rw [h0, pow_zero, one_mul] at hs
    rw [← hs]
    exact hrb.trans h.dvd
  have hlog := h.derivative_eq
  rw [hs, he, hb, derivative_mul, derivative_pow] at hlog
  have hcancel : r * b' * ((e + 1 : ℕ) * r.derivative w * s + r * s.derivative w) = s * c := by
    refine mul_left_cancel₀ (pow_ne_zero (e + 1) hprime.ne_zero) ?_
    linear_combination hlog
  have hrc : r ∣ c := by
    refine (hprime.dvd_or_dvd (a := s) ?_).resolve_left hrs
    rw [← hcancel, mul_assoc]
    exact dvd_mul_right _ _
  exact hr.not_isUnit (h.isRelPrime hrb hrc)

end IsRound

theorem product_squarefreeRounds {w : String} {rounds k : ℕ} {q b c : Poly}
    (h : IsRound w q b c) (hrounds : q.degreeIn w < rounds) :
    Associated (((squarefreeRounds w rounds (k + 1) b (c - b.derivative w)).map
      fun part => part.1 ^ part.2).prod) (b ^ k * q) := by
  induction rounds generalizing k q b c with
  | zero => omega
  | succ rounds ih =>
    obtain ⟨hq, hb, hnil⟩ | ⟨a, b', c', q', hb, hq, hfree, hnext, ha, hround⟩ :=
      h.squarefreeRounds_eq rounds (k + 1)
    · rw [hnil]
      exact (associated_one_iff_isUnit.2 ((hb.pow k).mul hq)).symm
    · have hdeg : q'.degreeIn w < rounds := by
        have hmul := degreeIn_mul h.ne_zero hnext.primitive.ne_zero w
        rw [← hq] at hmul
        omega
      have hpart : Associated (((if a.degreeIn w = 0 then [] else [(a, k + 1)]).map
          fun part => part.1 ^ part.2).prod) (a ^ (k + 1)) := by
        split
        · next hfree' => exact (associated_one_iff_isUnit.2 ((ha hfree').pow (k + 1))).symm
        · simp
      rw [hround, List.map_append, List.prod_append]
      refine (hpart.mul_mul (ih hnext hdeg)).trans ?_
      have heq : a ^ (k + 1) * (b' ^ (k + 1) * q') = b ^ k * q := by
        rw [hq]
        conv_rhs => rw [hb]
        ring
      exact Associated.of_eq heq

/-- Without their multiplicities, the parts multiply to the logarithmic denominator. -/
theorem bases_squarefreeRounds {w : String} {rounds k : ℕ} {q b c : Poly}
    (h : IsRound w q b c) (hrounds : q.degreeIn w < rounds) :
    Associated ((squarefreeRounds w rounds k b (c - b.derivative w)).map Prod.fst).prod b := by
  induction rounds generalizing k q b c with
  | zero => omega
  | succ rounds ih =>
    obtain ⟨-, hb, hnil⟩ | ⟨a, b', c', q', hb, hq, hfree, hnext, ha, hround⟩ :=
      h.squarefreeRounds_eq rounds k
    · rw [hnil]
      exact (associated_one_iff_isUnit.2 hb).symm
    · have hdeg : q'.degreeIn w < rounds := by
        have hmul := degreeIn_mul h.ne_zero hnext.primitive.ne_zero w
        rw [← hq] at hmul
        omega
      have hpart : Associated (((if a.degreeIn w = 0 then [] else [(a, k)]).map Prod.fst).prod)
          a := by
        split
        · next hfree' => exact (associated_one_iff_isUnit.2 (ha hfree')).symm
        · simp
      rw [hround, List.map_append, List.prod_append, hb, mul_comm b' a]
      exact hpart.mul_mul (ih hnext hdeg)

/-- The divisions before the first round are exact, and what is to be found in the rounds is
the polynomial itself. -/
theorem exists_divExact?_derivative {p : Poly} {w : String} (hp : PrimitiveIn w p) :
    ∃ b c, p.divExact? (gcd p (p.derivative w)) = some b ∧
      (p.derivative w).divExact? (gcd p (p.derivative w)) = some c ∧ IsRound w p b c := by
  have hp0 := hp.ne_zero
  have ha := isGcd_gcd p (p.derivative w)
  have ha0 : gcd p (p.derivative w) ≠ 0 := ne_zero_of_dvd_ne_zero hp0 ha.dvd_left
  set a := gcd p (p.derivative w)
  obtain ⟨b, hb⟩ := ha.dvd_left
  obtain ⟨c, hc⟩ := ha.dvd_right
  rw [mul_comm] at hb hc
  refine ⟨b, c, divExact?_eq_some_iff.2 ⟨ha0, hb⟩, divExact?_eq_some_iff.2 ⟨ha0, hc⟩, hp, ?_,
    ha.isRelPrime ha0 hb hc, ?_⟩
  · conv_rhs => rw [hb]
    rw [hc]
    ring
  · rintro rfl
    exact hp0 (by rw [hb, zero_mul])

/-- The decomposition is what the rounds find. -/
theorem exists_isRound {p : Poly} {w : String} (hp : PrimitiveIn w p) :
    ∃ b c, IsRound w p b c ∧ squarefreeParts p w
      = squarefreeRounds w (p.degreeIn w + 1) 1 b (c - b.derivative w) := by
  obtain ⟨b, c, hb, hc, hround⟩ := exists_divExact?_derivative hp
  refine ⟨b, c, hround, ?_⟩
  rw [squarefreeParts, hb, hc]
  rfl

/-- The powers of the squarefree parts multiply to the polynomial. -/
theorem associated_squarefreeParts {p : Poly} {w : String} (hp : PrimitiveIn w p) :
    Associated (((squarefreeParts p w).map fun part => part.1 ^ part.2).prod) p := by
  obtain ⟨b, c, hround, hparts⟩ := exists_isRound hp
  have hproduct := product_squarefreeRounds (k := 0) hround (Nat.lt_succ_self _)
  rwa [pow_zero, one_mul, ← hparts] at hproduct

/-- The squarefree parts are squarefree, and coprime to one another. -/
theorem squarefree_prod_squarefreeParts {p : Poly} {w : String} (hp : PrimitiveIn w p) :
    Squarefree ((squarefreeParts p w).map Prod.fst).prod := by
  obtain ⟨b, c, hround, hparts⟩ := exists_isRound hp
  rw [hparts]
  have hbases := bases_squarefreeRounds (k := 1) hround (Nat.lt_succ_self _)
  exact hbases.squarefree_iff.2 hround.squarefree

theorem lt_of_mem_squarefreeRounds {w : String} {rounds k : ℕ} {b d : Poly} {part : Poly × ℕ}
    (h : part ∈ squarefreeRounds w rounds (k + 1) b d) : k < part.2 := by
  induction rounds generalizing k b d with
  | zero =>
    unfold squarefreeRounds at h
    split at h
    · cases h
    · cases List.mem_singleton.1 h
      exact Nat.lt_succ_self k
  | succ rounds ih =>
    have hhead (a : Poly) (ha : part ∈ if a.degreeIn w = 0 then [] else [(a, k + 1)]) :
        k < part.2 := by
      split at ha
      · cases ha
      · cases List.mem_singleton.1 ha
        exact Nat.lt_succ_self k
    unfold squarefreeRounds at h
    split at h
    · cases h
    · dsimp only at h
      split at h
      · rcases List.mem_append.1 h with h | h
        · exact hhead _ h
        · exact (Nat.lt_succ_self k).trans (ih h)
      · rcases List.mem_append.1 h with h | h
        · exact hhead _ h
        · cases List.mem_singleton.1 h
          exact Nat.lt_succ_self k

theorem pos_of_mem_squarefreeParts {p : Poly} {w : String} {part : Poly × ℕ}
    (h : part ∈ squarefreeParts p w) : 0 < part.2 := by
  unfold squarefreeParts at h
  dsimp only at h
  split at h
  · exact lt_of_mem_squarefreeRounds h
  · cases List.mem_singleton.1 h
    exact Nat.one_pos

theorem dvd_of_mem_squarefreeParts {p : Poly} {w : String} (hp : PrimitiveIn w p)
    {part : Poly × ℕ} (h : part ∈ squarefreeParts p w) : part.1 ∣ p :=
  (dvd_pow_self part.1 (pos_of_mem_squarefreeParts h).ne').trans
    ((List.dvd_prod (List.mem_map_of_mem h)).trans (associated_squarefreeParts hp).dvd)

end Poly
end Meadow
