import Meadow.Comparison
import Meadow.Monomial.Basic

set_option autoImplicit false

/-!
# Two orders on monomials

Both orders compare the lists of powers as words over an ordered alphabet, a
proper initial part being the smaller word; they differ in how two powers
compare.

* `Monomial.lexCmp` is the lexicographic monomial order.  The first variable on
  which the exponents differ decides, and the larger exponent is the larger
  monomial (`lexCmp_eq_lt_iff`); multiplying both sides by the same monomial
  changes nothing (`lexCmp_mul_right`).
* `Monomial.cmp` compares powers by name and then by exponent.  It is the order
  in which the terms of a polynomial are listed.
-/

namespace Meadow

/-! ## Powers as letters -/

namespace Power

/-- The alphabet of the lexicographic order: an earlier variable is the larger
letter, and so is a larger exponent. -/
def lexCmp (p q : String × Nat) : Ordering := (compare q.1 p.1).then (compare p.2 q.2)

/-- The alphabet of the structural order: name first, then exponent. -/
def cmp (p q : String × Nat) : Ordering := (compare p.1 q.1).then (compare p.2 q.2)

/-- When one letter of the lexicographic order is below another. -/
theorem lexCmp_eq_lt_iff {p q : String × Nat} :
    lexCmp p q = .lt ↔ q.1 < p.1 ∨ q.1 = p.1 ∧ p.2 < q.2 := by
  simp only [lexCmp, Ordering.then_eq_lt, compare_string_lt_iff, Nat.compare_eq_lt,
    Std.LawfulEqCmp.compare_eq_iff_eq]

theorem lexCmp_eq_eq_iff {p q : String × Nat} : lexCmp p q = .eq ↔ p = q := by
  obtain ⟨pv, pe⟩ := p
  obtain ⟨qv, qe⟩ := q
  simp only [lexCmp, Ordering.then_eq_eq, Std.LawfulEqCmp.compare_eq_iff_eq, Prod.mk.injEq]
  exact and_congr_left fun _ => eq_comm

/-- When one letter of the structural order is below another. -/
theorem cmp_eq_lt_iff {p q : String × Nat} :
    cmp p q = .lt ↔ p.1 < q.1 ∨ p.1 = q.1 ∧ p.2 < q.2 := by
  simp only [cmp, Ordering.then_eq_lt, compare_string_lt_iff, Nat.compare_eq_lt,
    Std.LawfulEqCmp.compare_eq_iff_eq]

theorem cmp_eq_eq_iff {p q : String × Nat} : cmp p q = .eq ↔ p = q := by
  obtain ⟨pv, pe⟩ := p
  obtain ⟨qv, qe⟩ := q
  simp only [cmp, Ordering.then_eq_eq, Std.LawfulEqCmp.compare_eq_iff_eq, Prod.mk.injEq]

theorem lexCmp_swap (p q : String × Nat) : lexCmp p q = (lexCmp q p).swap := by
  rw [lexCmp, lexCmp, Ordering.swap_then, ← Std.OrientedCmp.eq_swap, ← Std.OrientedCmp.eq_swap]

theorem cmp_swap (p q : String × Nat) : cmp p q = (cmp q p).swap := by
  rw [cmp, cmp, Ordering.swap_then, ← Std.OrientedCmp.eq_swap, ← Std.OrientedCmp.eq_swap]

instance : Std.TransCmp lexCmp :=
  transCmp_of_lt lexCmp_swap (fun _ _ => lexCmp_eq_eq_iff.1) fun a b c hab hbc => by
    rw [lexCmp_eq_lt_iff] at *
    rcases hab with hab | ⟨e, hab⟩ <;> rcases hbc with hbc | ⟨e', hbc⟩
    · exact Or.inl (String.lt_trans hbc hab)
    · exact Or.inl (e' ▸ hab)
    · exact Or.inl (e ▸ hbc)
    · exact Or.inr ⟨e'.trans e, Nat.lt_trans hab hbc⟩

instance : Std.LawfulEqCmp lexCmp where
  compare_self := lexCmp_eq_eq_iff.2 rfl
  eq_of_compare := lexCmp_eq_eq_iff.1

instance : Std.TransCmp cmp :=
  transCmp_of_lt cmp_swap (fun _ _ => cmp_eq_eq_iff.1) fun a b c hab hbc => by
    rw [cmp_eq_lt_iff] at *
    rcases hab with hab | ⟨e, hab⟩ <;> rcases hbc with hbc | ⟨e', hbc⟩
    · exact Or.inl (String.lt_trans hab hbc)
    · exact Or.inl (e' ▸ hab)
    · exact Or.inl (e ▸ hbc)
    · exact Or.inr ⟨e.trans e', Nat.lt_trans hab hbc⟩

instance : Std.LawfulEqCmp cmp where
  compare_self := cmp_eq_eq_iff.2 rfl
  eq_of_compare := cmp_eq_eq_iff.1

end Power

/-! ## The orders -/

namespace Monomial

/-- The lexicographic monomial order. -/
def lexCmp (m n : Monomial) : Ordering := List.compareLex Power.lexCmp m.powers n.powers

/-- The structural order of the sorted lists of powers. -/
def cmp (m n : Monomial) : Ordering := List.compareLex Power.cmp m.powers n.powers

/-- Monomials with the same powers are equal. -/
theorem ext_powers {m n : Monomial} (h : m.powers = n.powers) : m = n := by
  obtain ⟨⟨ps, hps, pps⟩⟩ := m
  obtain ⟨⟨qs, hqs, pqs⟩⟩ := n
  cases (show ps = qs from h)
  rfl

instance : Std.TransCmp lexCmp where
  eq_swap := Std.OrientedCmp.eq_swap (α := List (String × Nat))
  isLE_trans := Std.TransCmp.isLE_trans (α := List (String × Nat))

instance : Std.LawfulEqCmp lexCmp where
  compare_self := Std.ReflCmp.compare_self (α := List (String × Nat))
  eq_of_compare h := ext_powers (Std.LawfulEqCmp.eq_of_compare (α := List (String × Nat)) h)

instance : Std.TransCmp cmp where
  eq_swap := Std.OrientedCmp.eq_swap (α := List (String × Nat))
  isLE_trans := Std.TransCmp.isLE_trans (α := List (String × Nat))

instance : Std.LawfulEqCmp cmp where
  compare_self := Std.ReflCmp.compare_self (α := List (String × Nat))
  eq_of_compare h := ext_powers (Std.LawfulEqCmp.eq_of_compare (α := List (String × Nat)) h)

/-! ## The lexicographic order through exponents -/

/-- In a sorted list of powers nothing is said about the names below the first. -/
theorem get_below_head {p : String × Nat} {ps : List (String × Nat)}
    (hs : Entries.Sorted compare (p :: ps)) {w : String} (h : w < p.1) :
    Entries.get 0 w (p :: ps) = 0 := by
  have hlow : ∀ e ∈ p :: ps, compare w e.1 = .lt := fun e he => by
    rw [compare_string_lt_iff]
    rcases List.mem_cons.1 he with rfl | he
    · exact h
    · exact String.lt_trans h (compare_string_lt_iff.1 ((List.pairwise_cons.1 hs).1 e he))
  exact Entries.get_below hlow

/-- Behind the first power of a sorted list its name does not occur again. -/
theorem get_head_tail {p : String × Nat} {ps : List (String × Nat)}
    (hs : Entries.Sorted compare (p :: ps)) : Entries.get 0 p.1 ps = 0 :=
  Entries.get_below (List.pairwise_cons.1 hs).1

theorem get_head (p : String × Nat) (ps : List (String × Nat)) :
    Entries.get 0 p.1 (p :: ps) = p.2 := by
  simp [Entries.get]

/-- The first variable on which the exponents differ has the larger one in `qs`. -/
def FirstDifferenceLt (ps qs : List (String × Nat)) : Prop :=
  ∃ v, Entries.get 0 v ps < Entries.get 0 v qs ∧
    ∀ w, w < v → Entries.get 0 w ps = Entries.get 0 w qs

theorem not_firstDifferenceLt_nil (ps : List (String × Nat)) : ¬ FirstDifferenceLt ps [] := by
  rintro ⟨v, hv, -⟩
  exact absurd hv (Nat.not_lt_zero _)

/-- Only `qs` has the first variable of the two. -/
theorem firstDifferenceLt_of_below {ps qs : List (String × Nat)} {q : String × Nat}
    (hqs : Entries.Sorted compare (q :: qs)) (hq : q.2 ≠ 0)
    (hps : ∀ w, w ≤ q.1 → Entries.get 0 w ps = 0) : FirstDifferenceLt ps (q :: qs) := by
  refine ⟨q.1, ?_, fun w hw => ?_⟩
  · rw [hps q.1 (String.le_refl q.1), get_head]
    exact Nat.pos_of_ne_zero hq
  · rw [hps w (Std.le_of_lt hw), get_below_head hqs hw]

/-- Only `ps` has the first variable of the two. -/
theorem not_firstDifferenceLt_of_lt {p q : String × Nat} {ps qs : List (String × Nat)}
    (hqs : Entries.Sorted compare (q :: qs)) (hp : p.2 ≠ 0) (hlt : p.1 < q.1) :
    ¬ FirstDifferenceLt (p :: ps) (q :: qs) := by
  rintro ⟨v, hv, hlow⟩
  rcases Std.lt_trichotomy p.1 v with h | rfl | h
  · have heq := hlow _ h
    rw [get_head, get_below_head hqs hlt] at heq
    exact hp heq
  · rw [get_below_head hqs hlt] at hv
    exact absurd hv (Nat.not_lt_zero _)
  · rw [get_below_head hqs (String.lt_trans h hlt)] at hv
    exact absurd hv (Nat.not_lt_zero _)

/-- Both have the first variable: its exponents decide, or else the tails. -/
theorem firstDifferenceLt_cons_iff {u : String} {a b : Nat} {ps qs : List (String × Nat)}
    (hps : Entries.Sorted compare ((u, a) :: ps)) (hqs : Entries.Sorted compare ((u, b) :: qs)) :
    FirstDifferenceLt ((u, a) :: ps) ((u, b) :: qs) ↔
      a < b ∨ a = b ∧ FirstDifferenceLt ps qs := by
  have own : Entries.get 0 u ((u, a) :: ps) = a := get_head (u, a) ps
  have own' : Entries.get 0 u ((u, b) :: qs) = b := get_head (u, b) qs
  have tail : Entries.get 0 u ps = 0 := get_head_tail hps
  have tail' : Entries.get 0 u qs = 0 := get_head_tail hqs
  constructor
  · rintro ⟨v, hv, hlow⟩
    rcases Std.lt_trichotomy v u with h | rfl | h
    · rw [get_below_head hqs h] at hv
      exact absurd hv (Nat.not_lt_zero _)
    · rw [own, own'] at hv
      exact Or.inl hv
    · have heq := hlow _ h
      rw [own, own'] at heq
      have hne : u ≠ v := fun e => String.lt_irrefl _ (e ▸ h)
      refine Or.inr ⟨heq, v, by simpa [Entries.get, hne] using hv, fun w hw => ?_⟩
      by_cases e : u = w
      · subst e
        exact tail.trans tail'.symm
      · simpa [Entries.get, e] using hlow w hw
  · rintro (h | ⟨rfl, v, hv, hlow⟩)
    · refine ⟨u, by rwa [own, own'], fun w hw => ?_⟩
      rw [get_below_head hps hw, get_below_head hqs hw]
    · have hne : u ≠ v := by
        rintro rfl
        rw [tail, tail'] at hv
        exact absurd hv (Nat.lt_irrefl _)
      refine ⟨v, by simpa [Entries.get, hne] using hv, fun w hw => ?_⟩
      simp only [Entries.get]
      split
      · rfl
      · exact hlow w hw

/-- A sorted list of positive powers is below another in the lexicographic order
exactly when the first variable on which the exponents differ has the larger
exponent in the other. -/
theorem compareLex_lexCmp_eq_lt_iff {ps qs : List (String × Nat)}
    (hps : Entries.Sorted compare ps) (hqs : Entries.Sorted compare qs)
    (pps : Entries.Nonzero 0 ps) (pqs : Entries.Nonzero 0 qs) :
    List.compareLex Power.lexCmp ps qs = .lt ↔ FirstDifferenceLt ps qs := by
  induction ps generalizing qs with
  | nil =>
    cases qs with
    | nil => simpa [List.compareLex_nil_nil] using not_firstDifferenceLt_nil []
    | cons q qs =>
      simp only [List.compareLex_nil_cons, true_iff]
      exact firstDifferenceLt_of_below hqs (pqs q List.mem_cons_self) fun w _ => rfl
  | cons p ps ih =>
    cases qs with
    | nil => simpa [List.compareLex_cons_nil] using not_firstDifferenceLt_nil (p :: ps)
    | cons q qs =>
      rw [List.compareLex_cons_cons, Ordering.then_eq_lt, Power.lexCmp_eq_lt_iff,
        Power.lexCmp_eq_eq_iff, ih (List.pairwise_cons.1 hps).2 (List.pairwise_cons.1 hqs).2
          (fun r hr => pps r (List.mem_cons_of_mem _ hr))
          fun r hr => pqs r (List.mem_cons_of_mem _ hr)]
      rcases Std.lt_trichotomy p.1 q.1 with hlt | heq | hgt
      · have hp := pps p List.mem_cons_self
        refine iff_of_false ?_ (not_firstDifferenceLt_of_lt hqs hp hlt)
        rintro ((h | ⟨h, -⟩) | ⟨rfl, -⟩)
        · exact String.lt_irrefl _ (String.lt_trans h hlt)
        · exact String.lt_irrefl _ (h ▸ hlt)
        · exact String.lt_irrefl _ hlt
      · obtain ⟨u, a⟩ := p
        obtain ⟨u', b⟩ := q
        obtain rfl : u = u' := heq
        rw [firstDifferenceLt_cons_iff hps hqs]
        simp only [String.lt_irrefl, false_or, true_and, Prod.mk.injEq]
      · have hq := pqs q List.mem_cons_self
        refine iff_of_true (Or.inl (Or.inl hgt)) (firstDifferenceLt_of_below hqs hq fun w hw => ?_)
        exact get_below_head hps (Std.lt_of_le_of_lt hw hgt)

/-- One monomial is below another in the lexicographic order exactly when the
first variable on which their exponents differ has the larger exponent in the
other. -/
theorem lexCmp_eq_lt_iff {m n : Monomial} :
    m.lexCmp n = .lt ↔
      ∃ v, m.exponent v < n.exponent v ∧ ∀ w, w < v → m.exponent w = n.exponent w :=
  compareLex_lexCmp_eq_lt_iff m.exponents.sorted n.exponents.sorted m.exponents.nonzero
    n.exponents.nonzero

theorem lexCmp_eq_eq_iff {m n : Monomial} : m.lexCmp n = .eq ↔ m = n :=
  Std.LawfulEqCmp.compare_eq_iff_eq

/-- Multiplying both sides by the same monomial keeps the order. -/
theorem mul_lexCmp_lt {m n : Monomial} (h : m.lexCmp n = .lt) (k : Monomial) :
    (m.mul k).lexCmp (n.mul k) = .lt := by
  rw [lexCmp_eq_lt_iff] at *
  obtain ⟨v, hv, hlow⟩ := h
  exact ⟨v, by simpa using hv, fun w hw => by simp [hlow w hw]⟩

theorem mul_descending_lt (k m n : Monomial) (h : descending lexCmp m n = .lt) :
    descending lexCmp (m.mul k) (n.mul k) = .lt :=
  mul_lexCmp_lt h k

/-- The order of two monomials is that of their products with a third. -/
theorem lexCmp_mul_right (m n k : Monomial) : (m.mul k).lexCmp (n.mul k) = m.lexCmp n := by
  cases h : m.lexCmp n with
  | lt => exact mul_lexCmp_lt h k
  | eq => rw [lexCmp_eq_eq_iff.1 h]; exact lexCmp_eq_eq_iff.2 rfl
  | gt =>
    rw [Std.OrientedCmp.gt_iff_lt] at h ⊢
    exact mul_lexCmp_lt h k

end Monomial
end Meadow
