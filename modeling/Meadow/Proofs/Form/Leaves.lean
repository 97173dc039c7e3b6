import Mathlib
import Meadow.Form.Eval
import Meadow.Proofs.Assumptions
import Meadow.Proofs.Form.Value

set_option autoImplicit false

/-!
# The leaves of an evaluation

Evaluating a form under assumptions walks through its conditionals and ends at
quotients, each under the assumptions collected on the way (`Form.leaves`).  The
evaluation is zero exactly when a part of each leaf is (`Form.eval_eq_zero_iff`), and the
leaves cover every valuation at which the assumptions hold (`Form.exists_leaf`).  So a
form that evaluates to zero is zero there.
-/

namespace Meadow

/-- The end of a walk through conditionals: a quotient, a polynomial having the
denominator one, and what is assumed there. -/
structure Leaf where
  assumptions : Assumptions
  num : Poly
  den : Poly

namespace Form

/-- The leaves of a form, under assumptions that the conditions add to. -/
def leaves : Form → Assumptions → List Leaf
  | poly p, a => [⟨a, p, .one⟩]
  | frac n d, a => [⟨a, n, d⟩]
  | cond c t e, a =>
    let c := a.evalPoly c
    let roots := c.factors
    if c.isZero || roots.any a.zeros.contains then e.leaves a
    else
      t.leaves (a.withNonzeros roots) ++
        if c.isConstant then []
        else (roots.filter fun r => !a.nonzeros.contains r).flatMap fun r => e.leaves (a.withZero r)

end Form

/-- The numerator or the denominator of the leaf evaluates to zero. -/
def Leaf.Vanishes (leaf : Leaf) : Prop :=
  leaf.assumptions.evalPoly leaf.num = 0 ∨ leaf.assumptions.evalPoly leaf.den = 0

namespace Form

/-! ## Leaves and values -/

section Value

variable {K : Type*} [Field K] [CharZero K] {v : String → K}

omit [CharZero K] in
/-- What is assumed at a leaf includes what was assumed at first. -/
theorem holds_of_mem_leaves {f : Form} {a : Assumptions} {leaf : Leaf}
    (hleaf : leaf ∈ f.leaves a) (h : leaf.assumptions.Holds v) : a.Holds v := by
  induction f generalizing a with
  | poly p => rwa [List.mem_singleton.1 hleaf] at h
  | frac n d => rwa [List.mem_singleton.1 hleaf] at h
  | cond c t e iht ihe =>
    rw [leaves] at hleaf
    split at hleaf
    · exact ihe hleaf
    · rcases List.mem_append.1 hleaf with hleaf | hleaf
      · exact (Assumptions.holds_withNonzeros_iff.1 (iht hleaf)).1
      · split at hleaf
        · cases hleaf
        · obtain ⟨r, -, hleaf⟩ := List.mem_flatMap.1 hleaf
          exact (Assumptions.holds_withZero_iff.1 (ihe hleaf)).1

/-- Where the assumptions of a leaf hold, the form has the value of the leaf. -/
theorem value_eq_of_mem_leaves {f : Form} {a : Assumptions} {leaf : Leaf}
    (hleaf : leaf ∈ f.leaves a) (h : leaf.assumptions.Holds v) :
    f.value v = leaf.num.value v / leaf.den.value v := by
  induction f generalizing a with
  | poly p =>
    rw [List.mem_singleton.1 hleaf, value_poly, Poly.one_def, Poly.value_one, div_one]
  | frac n d => rw [List.mem_singleton.1 hleaf, value_frac]
  | cond c t e iht ihe =>
    have hhold := holds_of_mem_leaves hleaf h
    have hcondition := Assumptions.value_evalPoly_eq_zero_iff hhold c
    rw [Poly.value_eq_zero_iff_exists_factor] at hcondition
    rw [leaves] at hleaf
    split at hleaf
    · next hzero =>
      have hc : c.value v = 0 := by
        rw [← hcondition, ← Poly.value_eq_zero_iff_exists_factor]
        rcases Bool.or_eq_true _ _ ▸ hzero with hzero | hzero
        · rw [Poly.isZero_iff.1 hzero, Poly.value_zero]
        · obtain ⟨r, hr, hmem⟩ := List.any_eq_true.1 hzero
          exact (Poly.value_eq_zero_iff_exists_factor _).2 ⟨r, hr, hhold.zeros r hmem⟩
      rw [value_cond_of_eq_zero hc]
      exact ihe hleaf
    · rcases List.mem_append.1 hleaf with hleaf | hleaf
      · have hroots := (Assumptions.holds_withNonzeros_iff.1 (holds_of_mem_leaves hleaf h)).2
        have hc : c.value v ≠ 0 := by
          rw [Ne, ← hcondition]
          rintro ⟨r, hr, hr0⟩
          exact hroots r hr hr0
        rw [value_cond_of_ne_zero hc]
        exact iht hleaf
      · split at hleaf
        · cases hleaf
        · obtain ⟨r, hr, hleaf⟩ := List.mem_flatMap.1 hleaf
          have hr0 := (Assumptions.holds_withZero_iff.1 (holds_of_mem_leaves hleaf h)).2
          have hc : c.value v = 0 := hcondition.1 ⟨r, (List.mem_filter.1 hr).1, hr0⟩
          rw [value_cond_of_eq_zero hc]
          exact ihe hleaf

/-- The leaves cover all valuations: the assumptions of one of them hold. -/
theorem exists_leaf (f : Form) {a : Assumptions} (h : a.Holds v) :
    ∃ leaf ∈ f.leaves a, leaf.assumptions.Holds v := by
  induction f generalizing a with
  | poly p => exact ⟨_, List.mem_singleton_self _, h⟩
  | frac n d => exact ⟨_, List.mem_singleton_self _, h⟩
  | cond c t e iht ihe =>
    rw [leaves]
    split
    · exact ihe h
    · next hopen =>
      by_cases hroots : ∀ r ∈ (a.evalPoly c).factors, r.value v ≠ 0
      · obtain ⟨leaf, hleaf, hholds⟩ := iht (Assumptions.holds_withNonzeros_iff.2 ⟨h, hroots⟩)
        exact ⟨leaf, List.mem_append_left _ hleaf, hholds⟩
      · push Not at hroots
        obtain ⟨r, hr, hr0⟩ := hroots
        have hconstant : ¬ (a.evalPoly c).isConstant = true := by
          intro hconst
          have hzero := (Poly.value_eq_zero_iff_exists_factor _).2 ⟨r, hr, hr0⟩
          refine value_constant_ne_zero hconst (fun h0 => hopen ?_) hzero
          rw [Poly.isZero_iff.2 h0, Bool.true_or]
        have hunsettled : a.nonzeros.contains r = false := by
          rw [← Bool.not_eq_true]
          exact fun hmem => h.nonzeros r hmem hr0
        obtain ⟨leaf, hleaf, hholds⟩ := ihe (Assumptions.holds_withZero_iff.2 ⟨h, hr0⟩)
        refine ⟨leaf, List.mem_append_right _ ?_, hholds⟩
        rw [if_neg hconstant]
        refine List.mem_flatMap.2 ⟨r, List.mem_filter.2 ⟨hr, ?_⟩, hleaf⟩
        rw [hunsettled]
        rfl

end Value

/-! ## When the evaluation is zero -/

/-- A branch for other values is never zero, nor is it such a conditional all the way
down.  This is what keeps a conditional from being simplified away when one of its
branches is zero. -/
def Settled : Form → Prop
  | poly _ => True
  | frac _ _ => True
  | cond _ t _ => t ≠ zero ∧ t.Settled

theorem underNonzero_eq_zero_iff {c : Poly} {t : Form} (ht : t.Settled) :
    underNonzero c t = zero ↔ t = zero := by
  cases t with
  | poly p => rfl
  | frac n d => rfl
  | cond c' t e =>
    rw [underNonzero]
    split
    · exact iff_of_false ht.1 (by simp [zero])
    · rfl

theorem settled_underNonzero {c : Poly} {t : Form} (ht : t.Settled) :
    (underNonzero c t).Settled := by
  cases t with
  | poly p => trivial
  | frac n d => trivial
  | cond c' t e =>
    rw [underNonzero]
    split
    · exact ht.2
    · exact ht

/-- A conditional on an open condition stays one that is not zero. -/
theorem branch_of_open {c : Poly} {t : Form} (e : Form) (ht : t.Settled) (ht0 : t ≠ zero)
    (hc : c.radical.isConstant = false) :
    (branch c t e).Settled ∧ branch c t e ≠ zero := by
  have hsettled := settled_underNonzero (c := c.radical) ht
  have hzero : underNonzero c.radical t ≠ zero := fun h => ht0 ((underNonzero_eq_zero_iff ht).1 h)
  have hc0 : c.radical.isZero = false := by
    rw [Poly.isZero_eq_false_iff]
    exact Poly.ne_zero_of_not_isConstant hc
  unfold branch
  dsimp only
  split
  · exact ⟨hsettled, hzero⟩
  · rw [hc0, hc, if_neg Bool.false_ne_true, if_neg Bool.false_ne_true]
    exact ⟨⟨hzero, hsettled⟩, by simp [zero]⟩

theorem mul_poly_poly (p q : Poly) : (poly p).mul (poly q) = poly (p * q) := by
  unfold mul
  split
  · next h =>
    rw [Poly.isZero_iff.1 h, zero_mul]
    rfl
  · split
    · next h => rw [Poly.isOne_iff.1 h, one_mul]
    · rfl

theorem poly_eq_zero_iff {p : Poly} : poly p = zero ↔ p = 0 := by
  rw [zero, poly.injEq]
  rfl

theorem findSome?_getD_eq_zero_iff {rs : List Poly} {g : Poly → Form} :
    (rs.findSome? fun r => if (g r).isZero then none else some (g r)).getD zero = zero ↔
      ∀ r ∈ rs, g r = zero := by
  induction rs with
  | nil => simp
  | cons r rs ih =>
    rw [List.findSome?_cons, List.forall_mem_cons, ← ih]
    by_cases hr : (g r).isZero = true
    · rw [if_pos hr, and_iff_right (isZero_iff.1 hr)]
    · rw [if_neg hr]
      exact iff_of_false (fun h => hr (isZero_iff.2 h)) fun h => hr (isZero_iff.2 h.1)

theorem settled_findSome?_getD {rs : List Poly} {g : Poly → Form} (h : ∀ r ∈ rs, (g r).Settled) :
    ((rs.findSome? fun r => if (g r).isZero then none else some (g r)).getD zero).Settled := by
  induction rs with
  | nil => trivial
  | cons r rs ih =>
    rw [List.findSome?_cons]
    by_cases hr : (g r).isZero = true
    · rw [if_pos hr]
      exact ih fun r' hr' => h r' (List.mem_cons_of_mem r hr')
    · rw [if_neg hr]
      exact h r List.mem_cons_self

theorem settled_and_eval_eq_zero_iff (f : Form) (a : Assumptions) :
    (f.eval a).Settled ∧ (f.eval a = zero ↔ ∀ leaf ∈ f.leaves a, leaf.Vanishes) := by
  induction f generalizing a with
  | poly p =>
    refine ⟨trivial, ?_⟩
    have hone : a.evalPoly .one ≠ 0 := by
      rw [Assumptions.evalPoly, if_pos (by decide)]
      exact one_ne_zero
    rw [leaves, List.forall_mem_singleton, eval, poly_eq_zero_iff]
    exact (or_iff_left hone).symm
  | frac n d =>
    rw [eval, mul_poly_poly, leaves, List.forall_mem_singleton, poly_eq_zero_iff, mul_eq_zero]
    exact ⟨trivial, Iff.rfl⟩
  | cond c t e iht ihe =>
    rw [eval, leaves]
    dsimp only
    split
    · exact ihe a
    · set c' := a.evalPoly c
      obtain ⟨htsettled, htzero⟩ := iht (a.withNonzeros c'.factors)
      rw [List.forall_mem_append, ← htzero]
      split
      · next hclosed =>
        have hnone : (if c'.isConstant then [] else (c'.factors.filter fun r =>
            !a.nonzeros.contains r).flatMap fun r => e.leaves (a.withZero r)) = [] := by
          rcases Bool.or_eq_true _ _ ▸ hclosed with hconst | hall
          · rw [if_pos hconst]
          · have hfilter : (c'.factors.filter fun r => !a.nonzeros.contains r) = [] := by
              rw [List.filter_eq_nil_iff]
              intro r hr
              rw [List.all_eq_true.1 hall r hr]
              exact Bool.false_ne_true
            rw [hfilter, List.flatMap_nil, ite_self]
        rw [hnone]
        exact ⟨htsettled, (and_iff_left (List.forall_mem_nil _)).symm⟩
      · next hopen =>
        rw [Bool.or_eq_true, not_or, Bool.not_eq_true] at hopen
        split
        · next ht =>
          have ht0 : t.eval (a.withNonzeros c'.factors) ≠ zero := by
            rw [Bool.not_eq_true'] at ht
            exact fun h0 => absurd (isZero_iff.2 h0) (by rw [ht]; exact Bool.false_ne_true)
          have hradical : c'.radical.isConstant = false := by
            rw [← Bool.not_eq_true, Poly.isConstant_radical_iff, hopen.1]
            exact Bool.false_ne_true
          obtain ⟨hsettled, hne⟩ := branch_of_open (e.eval a) htsettled ht0 hradical
          exact ⟨hsettled, iff_of_false hne fun h => ht0 h.1⟩
        · next ht =>
          rw [Bool.not_eq_true, Bool.not_eq_false'] at ht
          refine ⟨settled_findSome?_getD fun r _ => (ihe (a.withZero r)).1, ?_⟩
          rw [findSome?_getD_eq_zero_iff, and_iff_right (isZero_iff.1 ht), hopen.1,
            if_neg Bool.false_ne_true]
          constructor
          · intro h leaf hleaf
            obtain ⟨r, hr, hleaf⟩ := List.mem_flatMap.1 hleaf
            exact (ihe (a.withZero r)).2.1 (h r hr) leaf hleaf
          · intro h r hr
            apply (ihe (a.withZero r)).2.2
            intro leaf hleaf
            exact h leaf (List.mem_flatMap.2 ⟨r, hr, hleaf⟩)

/-- An evaluation is zero exactly when it vanishes at every leaf. -/
theorem eval_eq_zero_iff {f : Form} {a : Assumptions} :
    f.eval a = zero ↔ ∀ leaf ∈ f.leaves a, leaf.Vanishes :=
  (settled_and_eval_eq_zero_iff f a).2

section Soundness

variable {K : Type*} [Field K] [CharZero K] {v : String → K}

/-- A form that evaluates to zero under some assumptions is zero wherever they hold. -/
theorem value_eq_zero_of_eval {f : Form} {a : Assumptions} (h : a.Holds v)
    (heval : f.eval a = zero) : f.value v = 0 := by
  obtain ⟨leaf, hleaf, hholds⟩ := exists_leaf f h
  rw [value_eq_of_mem_leaves hleaf hholds, div_eq_zero_iff,
    ← Assumptions.value_evalPoly_eq_zero_iff hholds leaf.num,
    ← Assumptions.value_evalPoly_eq_zero_iff hholds leaf.den]
  rcases eval_eq_zero_iff.1 heval leaf hleaf with hnum | hden
  · exact Or.inl (by rw [hnum, Poly.value_zero])
  · exact Or.inr (by rw [hden, Poly.value_zero])

end Soundness

/-- Evaluation is sound under any assumptions: a form that evaluates to zero is zero
wherever the polynomials assumed to be zero are and those assumed not to be are not. -/
theorem eval_sound (f : Form) (a : Assumptions) (heval : (f.eval a).isZero = true)
    {K : Type*} [Field K] [CharZero K] (v : String → K)
    (hzeros : ∀ p ∈ a.zeros.toList, p.value v = 0)
    (hnonzeros : ∀ p ∈ a.nonzeros.toList, p.value v ≠ 0) : f.value v = 0 := by
  have hholds : a.Holds v :=
    ⟨fun p hp => hzeros p (FinSet.mem_toList_iff.2 hp),
      fun p hp => hnonzeros p (FinSet.mem_toList_iff.2 hp)⟩
  exact value_eq_zero_of_eval hholds (isZero_iff.1 heval)

end Form
end Meadow
