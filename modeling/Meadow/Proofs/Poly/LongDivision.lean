import Mathlib
import Meadow.Proofs.Poly.Gcd

set_option autoImplicit false

/-!
# Long division

Division cancels the leading term of what is left, round after round, for as long as
something is left.  Nothing in a round bounds how many there will be: what is left may gain
terms and degrees in all variables but the first.  The rounds come to an end because the
leading monomials descend in the lexicographic order, which over finitely many variables
has no infinite descending chain (`Monomial.wellFounded_lexCmp`).  They end with what
`divExact?` gives, which counts them beforehand (`Poly.LongDivision.eq_divExact?`), and so
decide divisibility.
-/

namespace Meadow

namespace Poly

/-! ## The rounds -/

/-- Cancelling leading terms by multiples of `b`, whose leading term is `lead`, leads from
what is left and the quotient so far to a quotient, or to nothing if a leading monomial is
no multiple of that of `b`. -/
inductive Cancels (b : Poly) (lead : Monomial × ℚ) : Poly → Poly → Option Poly → Prop
  | done {r q : Poly} (hr : r.leadingTerm? = none) : Cancels b lead r q (some q)
  | stuck {r q : Poly} {t : Monomial × ℚ} (ht : r.leadingTerm? = some t)
      (hm : t.1.divide? lead.1 = none) : Cancels b lead r q none
  | round {r q : Poly} {t : Monomial × ℚ} {m : Monomial} {result : Option Poly}
      (ht : r.leadingTerm? = some t) (hm : t.1.divide? lead.1 = some m)
      (hrest : Cancels b lead (r.sub (b.mulTerm m (t.2 / lead.2))) (q.addTerm m (t.2 / lead.2))
        result) : Cancels b lead r q result

/-- Long division of `a` by `b` ends with a result. -/
inductive LongDivision (a b : Poly) : Option Poly → Prop
  | byZero (hb : b.leadingTerm? = none) : LongDivision a b none
  | rounds {lead : Monomial × ℚ} {result : Option Poly} (hb : b.leadingTerm? = some lead)
      (h : Cancels b lead a zero result) : LongDivision a b result

variable {b : Poly} {lead : Monomial × ℚ}

/-- What a round leaves, with the multiplier as a polynomial. -/
theorem sub_mulTerm (r b : Poly) (m : Monomial) (c : ℚ) :
    r.sub (b.mulTerm m c) = r - monomial m c * b := by
  rw [mulTerm_eq_mul, sub_def]

theorem leadingTerm?_monomial (m : Monomial) {c : ℚ} (hc : c ≠ 0) :
    (monomial m c).leadingTerm? = some (m, c) := by
  refine leadingTerm?_eq_some_iff.2 ⟨by rw [coeff_monomial, if_pos rfl], hc, fun n hn => ?_⟩
  by_contra hne
  exact hn (by rw [coeff_monomial, if_neg fun h => hne (Or.inl h.symm)])

/-- The difference of two polynomials with the same leading term has a smaller one. -/
theorem leadingTerm?_sub_lt {p q : Poly} {t u : Monomial × ℚ} (hp : p.leadingTerm? = some t)
    (hq : q.leadingTerm? = some t) (hu : (p - q).leadingTerm? = some u) :
    u.1.lexCmp t.1 = .lt := by
  obtain ⟨hpt, -, hpmax⟩ := leadingTerm?_eq_some_iff.1 hp
  obtain ⟨hqt, -, hqmax⟩ := leadingTerm?_eq_some_iff.1 hq
  obtain ⟨huc, hu0, -⟩ := leadingTerm?_eq_some_iff.1 hu
  rw [← sub_def, coeff_sub] at huc
  have hle : u.1 = t.1 ∨ u.1.lexCmp t.1 = .lt := by
    by_cases hpu : p.coeff u.1 = 0
    · refine hqmax u.1 fun hqu => hu0 ?_
      rw [← huc, hpu, hqu, sub_zero]
    · exact hpmax u.1 hpu
  refine hle.resolve_left fun heq => hu0 ?_
  rw [← huc, heq, hpt, hqt, sub_self]

/-- A round cancels the leading term: what it leaves has a smaller one. -/
theorem leadingTerm?_round_lt {r : Poly} {t u : Monomial × ℚ} {m : Monomial}
    (hb : b.leadingTerm? = some lead) (ht : r.leadingTerm? = some t)
    (hm : t.1.divide? lead.1 = some m)
    (hu : (r - monomial m (t.2 / lead.2) * b).leadingTerm? = some u) :
    u.1.lexCmp t.1 = .lt := by
  have hlead : lead.2 ≠ 0 := (leadingTerm?_eq_some_iff.1 hb).2.1
  have ht0 : t.2 ≠ 0 := (leadingTerm?_eq_some_iff.1 ht).2.1
  have hmul := leadingTerm?_mul (leadingTerm?_monomial m (div_ne_zero ht0 hlead)) hb
  rw [div_mul_cancel₀ t.2 hlead, Monomial.mul_comm, ← Monomial.divide?_eq_some_iff.1 hm] at hmul
  exact leadingTerm?_sub_lt ht hmul hu

/-! ## Their result -/

theorem addTerm_eq (p : Poly) (m : Monomial) (c : ℚ) : p.addTerm m c = monomial m c + p :=
  add_def _ _

/-- The rounds add a quotient of what is left to the quotient so far, or else there is no
such quotient. -/
theorem Cancels.result {r q : Poly} {result : Option Poly} (hb : b.leadingTerm? = some lead)
    (h : Cancels b lead r q result) :
    (∀ q', result = some q' → r = (q' - q) * b) ∧ (result = none → ¬ b ∣ r) := by
  induction h with
  | done hr =>
    refine ⟨?_, nofun⟩
    rintro q' ⟨⟩
    rw [leadingTerm?_eq_none_iff.1 hr, sub_self, zero_mul]
  | @stuck r q t ht hm =>
    refine ⟨nofun, fun _ => ?_⟩
    rintro ⟨s, rfl⟩
    have hs : s ≠ 0 := by
      rintro rfl
      rw [mul_zero, leadingTerm?_eq_none_iff.2 rfl] at ht
      cases ht
    obtain ⟨k, c, hk⟩ := exists_leadingTerm? hs
    rw [leadingTerm?_mul hb hk] at ht
    cases ht
    rw [Monomial.divide?_eq_some_iff.2 rfl] at hm
    cases hm
  | @round r q t m result ht hm _ ih =>
    rw [sub_mulTerm, addTerm_eq] at ih
    refine ⟨fun q' hq' => ?_, fun hnone hdvd => ih.2 hnone ?_⟩
    · have hrest := ih.1 q' hq'
      linear_combination hrest
    · exact dvd_sub hdvd (dvd_mul_left b _)

/-! ## Their end -/

section Termination

variable {vs : List String}

theorem Over.monomial {p : Poly} {m : Monomial} (hp : Over vs p) (hm : p.coeff m ≠ 0) :
    m.Over vs := by
  intro x hx
  have hle := exponent_le_degreeIn hm x
  rwa [hp x hx, Nat.le_zero] at hle

theorem over_monomial {m : Monomial} (hm : m.Over vs) (c : ℚ) : Over vs (monomial m c) := by
  intro x hx
  refine Nat.le_zero.1 ((degreeIn_monomial_le m c x).trans ?_)
  rw [hm x hx]

/-- A round introduces no variables. -/
theorem Over.round {r : Poly} {t : Monomial × ℚ} {m : Monomial} (hb : Over vs b)
    (hr : Over vs r) (ht : r.leadingTerm? = some t) (hm : t.1.divide? lead.1 = some m) (c : ℚ) :
    Over vs (r - Poly.monomial m c * b) := by
  obtain ⟨hcoeff, ht0, -⟩ := leadingTerm?_eq_some_iff.1 ht
  have htover : t.1.Over vs := hr.monomial (hcoeff ▸ ht0)
  have hmover : m.Over vs := by
    intro x hx
    have hexp := congrArg (fun n => n.exponent x) (Monomial.divide?_eq_some_iff.1 hm)
    rw [htover x hx, Monomial.exponent_mul] at hexp
    omega
  exact hr.sub ((over_monomial hmover c).mul hb)

/-- The rounds come to an end, by induction on the leading monomial of what is left. -/
theorem exists_cancels (hb : b.leadingTerm? = some lead) (hbover : Over vs b) (r q : Poly)
    (hr : Over vs r) : ∃ result, Cancels b lead r q result := by
  have main (n : { m : Monomial // m.Over vs }) : ∀ (c : ℚ) (r q : Poly), Over vs r →
      r.leadingTerm? = some (n.1, c) → ∃ result, Cancels b lead r q result := by
    induction n using (Monomial.wellFounded_lexCmp vs).induction with
    | _ n ih =>
      intro c r q hr ht
      cases hm : n.1.divide? lead.1 with
      | none => exact ⟨none, .stuck ht hm⟩
      | some m =>
        have hover := hbover.round hr ht hm (c / lead.2)
        cases hu : (r - Poly.monomial m (c / lead.2) * b).leadingTerm? with
        | none =>
          refine ⟨_, .round ht hm (.done ?_)⟩
          rw [sub_mulTerm]
          exact hu
        | some u =>
          obtain ⟨hcoeff, hu0, -⟩ := leadingTerm?_eq_some_iff.1 hu
          have hlt := leadingTerm?_round_lt hb ht hm hu
          obtain ⟨result, hrest⟩ := ih ⟨u.1, hover.monomial (hcoeff ▸ hu0)⟩ hlt u.2 _
            (q.addTerm m (c / lead.2)) hover hu
          rw [← sub_mulTerm] at hrest
          exact ⟨result, .round ht hm hrest⟩
  cases ht : r.leadingTerm? with
  | none => exact ⟨some q, .done ht⟩
  | some t =>
    obtain ⟨hcoeff, ht0, -⟩ := leadingTerm?_eq_some_iff.1 ht
    exact main ⟨t.1, hr.monomial (hcoeff ▸ ht0)⟩ t.2 r q hr ht

end Termination

theorem exists_longDivision (a b : Poly) : ∃ result, LongDivision a b result := by
  cases hb : b.leadingTerm? with
  | none => exact ⟨none, .byZero hb⟩
  | some lead =>
    have hover (p : Poly) (hp : p.vars ⊆ a.vars ++ b.vars) : Over (a.vars ++ b.vars) p :=
      fun x hx => over_vars p x fun hmem => hx (hp hmem)
    obtain ⟨result, h⟩ := exists_cancels hb (hover b (List.subset_append_right _ _)) a zero
      (hover a (List.subset_append_left _ _))
    exact ⟨result, .rounds hb h⟩

/-- A result of long division is that of division with the rounds counted beforehand. -/
theorem LongDivision.eq_divExact? {a b : Poly} {result : Option Poly}
    (h : LongDivision a b result) : result = a.divExact? b := by
  cases h with
  | byZero hb => exact (divExact?_eq_none_iff.2 (Or.inl (leadingTerm?_eq_none_iff.1 hb))).symm
  | rounds hb h =>
    obtain ⟨hsome, hnone⟩ := h.result hb
    have hb0 : b ≠ 0 := by
      rintro rfl
      rw [leadingTerm?_eq_none_iff.2 rfl] at hb
      cases hb
    cases result with
    | none => exact (divExact?_eq_none_iff.2 (Or.inr (hnone rfl))).symm
    | some q =>
      have hq := hsome q rfl
      rw [zero_def, sub_zero] at hq
      exact (divExact?_eq_some_iff.2 ⟨hb0, hq⟩).symm

/-- Long division of any two polynomials ends, with a result that is also that of exact
division: the quotient if the divisor is not zero and divides, and nothing otherwise. -/
theorem longDivision_decides_dvd (a b : Poly) :
    (∃ result, LongDivision a b result) ∧
    (∀ result, LongDivision a b result → a.divExact? b = result) ∧
    (∀ q, a.divExact? b = some q ↔ b ≠ 0 ∧ a = q.mul b) ∧
    (a.divExact? b = none ↔ b = 0 ∨ ¬ b ∣ a) :=
  ⟨exists_longDivision a b, fun _ h => h.eq_divExact?.symm, fun _ => divExact?_eq_some_iff,
    divExact?_eq_none_iff⟩

end Poly
end Meadow
