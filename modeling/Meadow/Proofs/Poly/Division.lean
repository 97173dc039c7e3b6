import Mathlib
import Meadow.Poly.Division
import Meadow.Proofs.Monomial.Order
import Meadow.Proofs.Poly.Degree

set_option autoImplicit false

/-!
# Leading terms and exact division

The leading term of a product is the product of the leading terms
(`Poly.leadingTerm?_mul`).  So when `b` divides what is left, cancelling the
leading term takes one term off the quotient, and exact division decides
divisibility (`Poly.divExact?_eq_some_iff`).
-/

namespace Meadow

namespace Monomial

/-- The monomials that divide a given one number at most its `divisorCount`. -/
theorem length_le_divisorCount {box : Monomial} {ms : List Monomial} (hnodup : ms.Nodup)
    (h : ∀ m ∈ ms, m.divides box = true) : ms.length ≤ box.divisorCount := by
  classical
  have hcard : (ms.map toFinsupp).toFinset.card = ms.length := by
    rw [List.toFinset_card_of_nodup (hnodup.map toFinsupp_injective), List.length_map]
  have hsub : (ms.map toFinsupp).toFinset ⊆ Finset.Iic box.toFinsupp := by
    intro e he
    rw [List.mem_toFinset, List.mem_map] at he
    obtain ⟨m, hm, rfl⟩ := he
    rw [Finset.mem_Iic]
    exact fun v => divides_iff.1 (h m hm) v
  have hcount : (Finset.Iic box.toFinsupp).card = box.divisorCount := by
    have hprod := prod_powers (fun _ e => e + 1) (fun _ => rfl) box
    rw [Finsupp.card_Iic, divisorCount, ← List.foldr_map, ← List.prod_eq_foldr, hprod]
    exact Finset.prod_congr rfl fun v _ => Nat.card_Iic _
  rw [← hcard, ← hcount]
  exact Finset.card_le_card hsub

end Monomial

namespace Poly

/-! ## Leading terms -/

theorem leadingTerm?_eq_none_iff {p : Poly} : p.leadingTerm? = none ↔ p = 0 := by
  rw [leadingTerm?, List.head?_eq_none_iff, ← isZero_iff, isZero, List.isEmpty_iff]

/-- The leading term is the term with the largest monomial. -/
theorem leadingTerm?_eq_some_iff {p : Poly} {m : Monomial} {c : ℚ} :
    p.leadingTerm? = some (m, c) ↔
      p.coeff m = c ∧ c ≠ 0 ∧ ∀ n, p.coeff n ≠ 0 → n = m ∨ n.lexCmp m = .lt := by
  have hlead {t : Monomial × ℚ} (ht : p.leadingTerm? = some t) :
      t ∈ p.terms ∧ ∀ n, p.coeff n ≠ 0 → n = t.1 ∨ n.lexCmp t.1 = .lt := by
    obtain ⟨ts, hts⟩ := List.head?_eq_some_iff.1 ht
    refine ⟨hts ▸ List.mem_cons_self, fun n hn => ?_⟩
    have hmem := mem_terms_of_coeff_ne_zero hn
    rw [hts] at hmem
    rcases List.mem_cons.1 hmem with h | h
    · exact Or.inl (congrArg Prod.fst h)
    · have hs := p.coeffs.sorted
      rw [show p.coeffs.entries = t :: ts from hts] at hs
      exact Or.inr ((List.pairwise_cons.1 hs).1 _ h)
  constructor
  · intro h
    obtain ⟨hmem, hmax⟩ := hlead h
    exact ⟨coeff_of_mem hmem, p.coeffs.nonzero _ hmem, hmax⟩
  · rintro ⟨rfl, hc, hmax⟩
    cases ht : p.leadingTerm? with
    | none =>
      rw [leadingTerm?_eq_none_iff] at ht
      exact absurd (by rw [ht]; rfl) hc
    | some t =>
      obtain ⟨hmem, hmax'⟩ := hlead ht
      have ht0 : p.coeff t.1 ≠ 0 := coeff_ne_zero_of_mem hmem
      have heq : t.1 = m := by
        rcases hmax t.1 ht0 with h | h
        · exact h
        · rcases hmax' m hc with h' | h'
          · exact h'.symm
          · exact absurd (Std.TransCmp.lt_trans h h') (Monomial.lexCmp_irrefl _)
      rw [← heq, coeff_of_mem hmem]

/-- A monomial of a product is the product of two monomials. -/
theorem exists_mul_of_coeff_mul_ne_zero {p q : Poly} {k : Monomial} (h : (p * q).coeff k ≠ 0) :
    ∃ m n, p.coeff m ≠ 0 ∧ q.coeff n ≠ 0 ∧ k = m.mul n := by
  classical
  rw [← coeff_toMv, ← mul_def, toMv_mul, MvPolynomial.coeff_mul] at h
  obtain ⟨⟨d, e⟩, hde, hne⟩ := Finset.exists_ne_zero_of_sum_ne_zero h
  obtain ⟨m, rfl⟩ := Monomial.toFinsupp_surjective d
  obtain ⟨n, rfl⟩ := Monomial.toFinsupp_surjective e
  rw [coeff_toMv, coeff_toMv] at hne
  rw [Finset.HasAntidiagonal.mem_antidiagonal, ← Monomial.toFinsupp_mul,
    Monomial.toFinsupp_inj] at hde
  exact ⟨m, n, left_ne_zero_of_mul hne, right_ne_zero_of_mul hne, hde.symm⟩

/-- The leading term of a product is the product of the leading terms. -/
theorem leadingTerm?_mul {p q : Poly} {m n : Monomial} {c d : ℚ}
    (hp : p.leadingTerm? = some (m, c)) (hq : q.leadingTerm? = some (n, d)) :
    (p * q).leadingTerm? = some (m.mul n, c * d) := by
  classical
  rw [leadingTerm?_eq_some_iff] at hp hq ⊢
  obtain ⟨rfl, hc, hp⟩ := hp
  obtain ⟨rfl, hd, hq⟩ := hq
  refine ⟨?_, mul_ne_zero hc hd, fun k hk => ?_⟩
  · rw [← coeff_toMv, ← mul_def, toMv_mul, MvPolynomial.coeff_mul,
      Finset.sum_eq_single (m.toFinsupp, n.toFinsupp)]
    · rw [coeff_toMv, coeff_toMv]
    · rintro ⟨e, f⟩ hef hne
      obtain ⟨k, rfl⟩ := Monomial.toFinsupp_surjective e
      obtain ⟨l, rfl⟩ := Monomial.toFinsupp_surjective f
      rw [Finset.HasAntidiagonal.mem_antidiagonal, ← Monomial.toFinsupp_mul,
        Monomial.toFinsupp_inj] at hef
      rw [coeff_toMv, coeff_toMv]
      by_contra h0
      rcases Monomial.mul_eq_or_lt (hp k (left_ne_zero_of_mul h0))
        (hq l (right_ne_zero_of_mul h0)) with ⟨rfl, rfl⟩ | h
      · exact hne rfl
      · rw [hef] at h
        exact Monomial.lexCmp_irrefl _ h
    · intro h
      exact absurd (Finset.HasAntidiagonal.mem_antidiagonal.2 (Monomial.toFinsupp_mul m n).symm) h
  · obtain ⟨k, l, hkp, hl, rfl⟩ := exists_mul_of_coeff_mul_ne_zero hk
    rcases Monomial.mul_eq_or_lt (hp k hkp) (hq l hl) with ⟨rfl, rfl⟩ | h
    · exact Or.inl rfl
    · exact Or.inr h

theorem exists_leadingTerm? {p : Poly} (hp : p ≠ 0) : ∃ m c, p.leadingTerm? = some (m, c) := by
  cases h : p.leadingTerm? with
  | none => exact absurd (leadingTerm?_eq_none_iff.1 h) hp
  | some t => exact ⟨t.1, t.2, rfl⟩

theorem leadingCoeff_of_leadingTerm? {p : Poly} {m : Monomial} {c : ℚ}
    (h : p.leadingTerm? = some (m, c)) : p.leadingCoeff = c := by
  rw [leadingCoeff, h]

@[simp] theorem leadingCoeff_zero : (0 : Poly).leadingCoeff = 0 := rfl

theorem leadingCoeff_constant (c : ℚ) : (constant c).leadingCoeff = c := by
  by_cases hc : c = 0
  · rw [hc, constant_zero, leadingCoeff_zero]
  · refine leadingCoeff_of_leadingTerm? (m := .one) (leadingTerm?_eq_some_iff.2 ?_)
    rw [coeff_constant, if_pos rfl]
    refine ⟨rfl, hc, fun n hn => ?_⟩
    by_contra hne
    exact hn (by rw [coeff_constant, if_neg fun h => hne (Or.inl h)])

theorem leadingCoeff_mul (p q : Poly) :
    (p * q).leadingCoeff = p.leadingCoeff * q.leadingCoeff := by
  by_cases hp : p = 0
  · rw [hp, zero_mul, leadingCoeff_zero, zero_mul]
  by_cases hq : q = 0
  · rw [hq, mul_zero, leadingCoeff_zero, mul_zero]
  obtain ⟨m, c, hm⟩ := exists_leadingTerm? hp
  obtain ⟨n, d, hn⟩ := exists_leadingTerm? hq
  rw [leadingCoeff_of_leadingTerm? (leadingTerm?_mul hm hn), leadingCoeff_of_leadingTerm? hm,
    leadingCoeff_of_leadingTerm? hn]

theorem leadingCoeff_eq_zero_iff {p : Poly} : p.leadingCoeff = 0 ↔ p = 0 := by
  constructor
  · intro h
    by_contra hp
    obtain ⟨m, c, hm⟩ := exists_leadingTerm? hp
    rw [leadingCoeff_of_leadingTerm? hm] at h
    exact (leadingTerm?_eq_some_iff.1 hm).2.1 h
  · rintro rfl
    rfl

/-- The leading term taken off. -/
theorem exists_tail {p : Poly} {m : Monomial} {c : ℚ} (h : p.leadingTerm? = some (m, c)) :
    ∃ q, p = monomial m c + q ∧ p.size = q.size + 1 ∧ ∀ n, q.coeff n ≠ 0 → p.coeff n ≠ 0 := by
  obtain ⟨⟨es, hs, hn⟩⟩ := p
  obtain ⟨ts, rfl : es = (m, c) :: ts⟩ := List.head?_eq_some_iff.1 h
  obtain ⟨hm, hs'⟩ := List.pairwise_cons.1 hs
  obtain ⟨hc, hn'⟩ := List.forall_mem_cons.1 hn
  let q : Poly := ⟨⟨ts, hs', hn'⟩⟩
  have hzero : q.coeff m = 0 := Entries.get_below hm
  have hcoeff (n : Monomial) :
      (⟨⟨(m, c) :: ts, hs, hn⟩⟩ : Poly).coeff n = if m = n then c else q.coeff n := rfl
  refine ⟨q, ext_coeff fun n => ?_, rfl, fun n hq => ?_⟩
  · rw [hcoeff, ← add_def, coeff_add, coeff_monomial]
    by_cases hmn : m = n
    · rw [if_pos hmn, if_pos hmn, ← hmn, hzero, add_zero]
    · rw [if_neg hmn, if_neg hmn, zero_add]
  · rw [hcoeff]
    split
    · exact hc
    · exact hq

/-! ## Division -/

theorem mulTerm_eq_mul (m : Monomial) (c : ℚ) (p : Poly) : p.mulTerm m c = monomial m c * p :=
  toMv_injective (by rw [toMv_mulTerm, ← mul_def, toMv_mul, toMv_monomial])

/-- What the cancelled terms add up to is the quotient. -/
theorem eq_mul_of_cancelLeading {b : Poly} {lead : Monomial × ℚ} {box : Monomial} {steps : ℕ}
    {r q : Poly} (h : cancelLeading b lead box steps r = some q) : r = q * b := by
  induction steps generalizing r q with
  | zero =>
    unfold cancelLeading at h
    split at h
    · next hr =>
      cases h
      rw [isZero_iff.1 hr]
      exact (zero_mul b).symm
    · cases h
  | succ steps ih =>
    unfold cancelLeading at h
    split at h
    · next hr =>
      cases h
      rw [leadingTerm?_eq_none_iff.1 hr]
      exact (zero_mul b).symm
    · next t ht =>
      split at h
      · cases h
      · next m hm =>
        split at h
        · obtain ⟨q', hq', rfl⟩ := Option.map_eq_some_iff.1 h
          have hr := ih hq'
          have hneg : monomial m (-(t.2 / lead.2)) = -monomial m (t.2 / lead.2) :=
            ext_coeff fun n => by
              rw [← neg_def, coeff_neg, coeff_monomial, coeff_monomial]
              split <;> simp
          rw [mulTerm_eq_mul, add_def, hneg] at hr
          rw [add_def, add_mul, ← hr]
          ring
        · cases h

/-- A quotient whose monomials divide the box and that has no more terms than there
are steps is found. -/
theorem cancelLeading_mul {b : Poly} {lead : Monomial × ℚ} {box : Monomial}
    (hb : b.leadingTerm? = some lead) {steps : ℕ} {q : Poly} (hsize : q.size ≤ steps)
    (hbox : ∀ n, q.coeff n ≠ 0 → n.divides box = true) :
    cancelLeading b lead box steps (q * b) = some q := by
  obtain ⟨lm, lc⟩ := lead
  have hlc : lc ≠ 0 := (leadingTerm?_eq_some_iff.1 hb).2.1
  induction steps generalizing q with
  | zero =>
    have hq : q = 0 := isZero_iff.1 (List.isEmpty_iff.2 (List.length_eq_zero_iff.1
      (Nat.le_zero.1 hsize)))
    rw [cancelLeading, hq, zero_mul, if_pos (isZero_iff.2 rfl)]
    rfl
  | succ steps ih =>
    rw [cancelLeading]
    by_cases hq : q = 0
    · rw [hq, zero_mul]
      rfl
    · obtain ⟨m, c, hm⟩ := exists_leadingTerm? hq
      obtain ⟨hcoeff, hc, -⟩ := leadingTerm?_eq_some_iff.1 hm
      have hdiv : (m.mul lm).divide? lm = some m :=
        Monomial.divide?_eq_some_iff.2 (Monomial.mul_comm m lm)
      obtain ⟨q', hq', hsize', hsub⟩ := exists_tail hm
      have hnext : (q * b).add (b.mulTerm m (-(c * lc / lc))) = q' * b := by
        rw [mulTerm_eq_mul, add_def, mul_div_assoc, div_self hlc, mul_one, hq']
        have hneg : monomial m (-c) = -monomial m c := ext_coeff fun n => by
          rw [← neg_def, coeff_neg, coeff_monomial, coeff_monomial]
          split <;> simp
        rw [hneg]
        ring
      have hrest := ih (q := q') (by omega) fun n hn => hbox n (hsub n hn)
      simp only [leadingTerm?_mul hm hb, hdiv, hbox m (hcoeff ▸ hc), if_true, hnext, hrest]
      rw [mul_div_assoc, div_self hlc, mul_one, Option.map_some, hq']
      rfl

/-- Exact division decides divisibility and finds the quotient. -/
theorem divExact?_eq_some_iff {a b q : Poly} : a.divExact? b = some q ↔ b ≠ 0 ∧ a = q * b := by
  rw [divExact?]
  constructor
  · intro h
    split at h
    · cases h
    · next lead hlead =>
      have hb : b ≠ 0 := by
        rintro rfl
        cases hlead
      refine ⟨hb, ?_⟩
      split at h
      · next ha =>
        cases h
        rw [isZero_iff.1 ha]
        exact (zero_mul b).symm
      · split at h
        · cases h
        · exact eq_mul_of_cancelLeading h
  · rintro ⟨hb, rfl⟩
    obtain ⟨m, c, hm⟩ := exists_leadingTerm? hb
    rw [hm]
    by_cases hq : q = 0
    · rw [hq, zero_mul]
      rfl
    · have ha : q * b ≠ 0 := mul_ne_zero hq hb
      have hdegrees : (q * b).degrees = b.degrees.mul q.degrees :=
        Monomial.ext_exponent fun v => by
          rw [Monomial.exponent_mul, exponent_degrees, exponent_degrees, exponent_degrees,
            degreeIn_mul hq hb, Nat.add_comm]
      have hbox : ∀ n, q.coeff n ≠ 0 → n.divides q.degrees = true := by
        intro n hn
        rw [Monomial.divides_iff]
        intro v
        rw [exponent_degrees]
        exact exponent_le_degreeIn hn v
      have hsize : q.size ≤ q.degrees.divisorCount := by
        have hmem : ∀ n ∈ q.coeffs.keys, n.divides q.degrees = true := by
          intro n hn
          exact hbox n (FinSupp.mem_keys_iff.1 hn)
        have hle := Monomial.length_le_divisorCount q.coeffs.nodup_keys hmem
        rwa [FinSupp.keys, List.length_map] at hle
      simp only [isZero_eq_false_iff.2 ha, Bool.false_eq_true, if_false,
        Monomial.divide?_eq_some_iff.2 hdegrees]
      exact cancelLeading_mul hm hsize hbox

/-- The quotient is missing exactly when there is none. -/
theorem divExact?_eq_none_iff {a b : Poly} : a.divExact? b = none ↔ b = 0 ∨ ¬ b ∣ a := by
  rw [Option.eq_none_iff_forall_ne_some]
  constructor
  · intro h
    by_contra hb
    push Not at hb
    obtain ⟨hb, q, hq⟩ := hb
    exact h q (divExact?_eq_some_iff.2 ⟨hb, by rw [hq, mul_comm]⟩)
  · intro h q hq
    obtain ⟨hb, rfl⟩ := divExact?_eq_some_iff.1 hq
    rcases h with h | h
    · exact hb h
    · exact h (Dvd.intro_left q rfl)

end Poly
end Meadow
