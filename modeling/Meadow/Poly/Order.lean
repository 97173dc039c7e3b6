import Meadow.Poly.Basic

set_option autoImplicit false

/-!
# An order on polynomials

`Poly.listed` lists the terms in increasing structural order of their monomials.
`Poly.cmp` compares two such lists term by term, the monomial before the
coefficient, a proper initial part being the smaller one.  It is a total order
that tells different polynomials apart, so that sets of polynomials can be kept
sorted.
-/

namespace Meadow

namespace Term

/-- Terms compare by their monomials and then by their coefficients. -/
def cmp (s t : Monomial × Rat) : Ordering := (s.1.cmp t.1).then (compareRat s.2 t.2)

theorem cmp_eq_lt_iff {s t : Monomial × Rat} :
    cmp s t = .lt ↔ s.1.cmp t.1 = .lt ∨ s.1 = t.1 ∧ s.2 < t.2 := by
  simp only [cmp, Ordering.then_eq_lt, compareRat_eq_lt_iff, Std.LawfulEqCmp.compare_eq_iff_eq]

theorem cmp_eq_eq_iff {s t : Monomial × Rat} : cmp s t = .eq ↔ s = t := by
  obtain ⟨m, a⟩ := s
  obtain ⟨n, b⟩ := t
  simp only [cmp, Ordering.then_eq_eq, Std.LawfulEqCmp.compare_eq_iff_eq, Prod.mk.injEq]

theorem cmp_swap (s t : Monomial × Rat) : cmp s t = (cmp t s).swap := by
  rw [cmp, cmp, Ordering.swap_then, ← Std.OrientedCmp.eq_swap, ← Std.OrientedCmp.eq_swap]

instance : Std.TransCmp cmp :=
  transCmp_of_lt cmp_swap (fun _ _ => cmp_eq_eq_iff.1) fun a b c hab hbc => by
    rw [cmp_eq_lt_iff] at *
    rcases hab with hab | ⟨e, hab⟩ <;> rcases hbc with hbc | ⟨e', hbc⟩
    · exact Or.inl (Std.TransCmp.lt_trans hab hbc)
    · exact Or.inl (e' ▸ hab)
    · exact Or.inl (e ▸ hbc)
    · exact Or.inr ⟨e.trans e', Std.lt_trans hab hbc⟩

instance : Std.LawfulEqCmp cmp where
  compare_self := cmp_eq_eq_iff.2 rfl
  eq_of_compare := cmp_eq_eq_iff.1

end Term

namespace Poly

/-- The terms in increasing structural order of their monomials. -/
def listed (p : Poly) : List (Monomial × Rat) :=
  p.terms.mergeSort fun s t => (s.1.cmp t.1).isLE

/-- The order of the listed terms, read as words. -/
def cmp (p q : Poly) : Ordering := List.compareLex Term.cmp p.listed q.listed

theorem listed_perm (p : Poly) : p.listed.Perm p.terms := List.mergeSort_perm _ _

/-- The listed terms determine the polynomial. -/
theorem ext_listed {p q : Poly} (h : p.listed = q.listed) : p = q := by
  have hperm : p.terms.Perm q.terms := p.listed_perm.symm.trans (h ▸ q.listed_perm)
  refine ext_coeff fun m => ?_
  by_cases hz : p.coeff m = 0
  · by_cases hq : q.coeff m = 0
    · rw [hz, hq]
    · have hm : (m, q.coeff m) ∈ q.terms := FinSupp.mem_entries_iff.2 ⟨rfl, hq⟩
      exact (FinSupp.mem_entries_iff.1 (hperm.mem_iff.2 hm)).1
  · have hm : (m, p.coeff m) ∈ p.terms := FinSupp.mem_entries_iff.2 ⟨rfl, hz⟩
    exact (FinSupp.mem_entries_iff.1 (hperm.mem_iff.1 hm)).1.symm

instance : Std.TransCmp cmp where
  eq_swap := Std.OrientedCmp.eq_swap (α := List (Monomial × Rat))
  isLE_trans := Std.TransCmp.isLE_trans (α := List (Monomial × Rat))

instance : Std.LawfulEqCmp cmp where
  compare_self := Std.ReflCmp.compare_self (α := List (Monomial × Rat))
  eq_of_compare h := ext_listed (Std.LawfulEqCmp.eq_of_compare (α := List (Monomial × Rat)) h)

end Poly
end Meadow
