import Mathlib
import Meadow.Form.Basic
import Meadow.Proofs.Poly.Factorization

set_option autoImplicit false

/-!
# Values of standard forms

Division in a field is total here, with zero for a quotient by zero.  The two ways of
building forms, `Form.quotient` and `Form.branch`, simplify what they are given and
keep its value.
-/

namespace Meadow

namespace Form

/-! ## The shapes -/

theorem isZero_iff {f : Form} : f.isZero = true ↔ f = zero := by
  cases f with
  | poly p =>
    rw [isZero, Poly.isZero_iff, zero, poly.injEq]
    rfl
  | frac n d => simp [isZero, zero]
  | cond c t e => simp [isZero, zero]

theorem isOne_iff {f : Form} : f.isOne = true ↔ f = one := by
  cases f with
  | poly p =>
    rw [isOne, Poly.isOne_iff, one, poly.injEq]
    rfl
  | frac n d => simp [isOne, one]
  | cond c t e => simp [isOne, one]

/-! ## Values -/

variable {K : Type*} [Field K] {v : String → K}

open Classical in
/-- The value of a form at a valuation of the variables. -/
noncomputable def value (v : String → K) : Form → K
  | poly p => p.value v
  | frac n d => n.value v / d.value v
  | cond c t e => if c.value v = 0 then e.value v else t.value v

@[simp] theorem value_poly (p : Poly) : (poly p).value v = p.value v := rfl

@[simp] theorem value_frac (n d : Poly) : (frac n d).value v = n.value v / d.value v := rfl

theorem value_cond_of_eq_zero {c : Poly} (h : c.value v = 0) (t e : Form) :
    (cond c t e).value v = e.value v := by
  rw [value, if_pos h]

theorem value_cond_of_ne_zero {c : Poly} (h : c.value v ≠ 0) (t e : Form) :
    (cond c t e).value v = t.value v := by
  rw [value, if_neg h]

theorem value_underNonzero {c : Poly} (h : c.value v ≠ 0) (t : Form) :
    (underNonzero c t).value v = t.value v := by
  cases t with
  | poly p => rfl
  | frac n d => rfl
  | cond c' t e =>
    rw [underNonzero]
    split
    · next heq =>
      rw [value_cond_of_ne_zero]
      rwa [heq]
    · rfl

variable [CharZero K]

@[simp] theorem value_zero : zero.value v = 0 := Poly.value_zero v

@[simp] theorem value_one : one.value v = 1 := Poly.value_one v

/-! ## Quotients -/

theorem value_constant_ne_zero {p : Poly} (hc : p.isConstant = true) (h0 : p ≠ 0) :
    p.value v ≠ 0 := by
  obtain ⟨c, rfl⟩ := Poly.isConstant_iff.1 hc
  rw [Poly.value_constant, Rat.cast_ne_zero]
  rintro rfl
  exact h0 Poly.constant_zero

theorem value_quotient (n d : Poly) : (quotient n d).value v = n.value v / d.value v := by
  unfold quotient
  split
  · next h =>
    rw [Bool.or_eq_true, Poly.isZero_iff, Poly.isZero_iff] at h
    rw [value_zero]
    rcases h with rfl | rfl
    · rw [Poly.value_zero, zero_div]
    · rw [Poly.value_zero, div_zero]
  · split
    · next c hc =>
      rw [Poly.constantValue?_eq_some_iff.1 hc, value_poly, Poly.value_scale, Poly.value_constant,
        Rat.cast_inv, div_eq_inv_mul]
    · rfl

/-! ## Conditionals -/

theorem value_underZero {c : Poly} (h : c.value v = 0) (e : Form) :
    (underZero c e).value v = e.value v := by
  cases e with
  | poly p =>
    rw [underZero]
    split
    · next heq => rw [value_zero, value_poly, heq, h]
    · rfl
  | frac n d =>
    rw [underZero]
    split
    · next heq =>
      rw [value_zero, value_frac]
      rcases heq with rfl | rfl
      · rw [h, zero_div]
      · rw [h, div_zero]
    · rfl
  | cond c' t e =>
    rw [underZero]
    split
    · next heq =>
      rw [value_cond_of_eq_zero]
      rwa [heq]
    · rfl

theorem value_branch_of_eq_zero {c : Poly} (h : c.value v = 0) (t e : Form) :
    (branch c t e).value v = e.value v := by
  have hradical : c.radical.value v = 0 := (Poly.value_radical_eq_zero_iff c).2 h
  have hzero := value_underZero hradical e
  unfold branch
  dsimp only
  split
  · next heq => rw [heq, hzero]
  · split
    · exact hzero
    · next h0 =>
      split
      · next hconst =>
        exact absurd hradical (value_constant_ne_zero hconst fun h => h0 (Poly.isZero_iff.2 h))
      · rw [value_cond_of_eq_zero hradical, hzero]

theorem value_branch_of_ne_zero {c : Poly} (h : c.value v ≠ 0) (t e : Form) :
    (branch c t e).value v = t.value v := by
  have hradical : c.radical.value v ≠ 0 := fun h0 => h ((Poly.value_radical_eq_zero_iff c).1 h0)
  have hnonzero := value_underNonzero hradical t
  unfold branch
  dsimp only
  split
  · exact hnonzero
  · split
    · next h0 =>
      refine absurd ?_ hradical
      rw [Poly.isZero_iff.1 h0, Poly.value_zero]
    · split
      · exact hnonzero
      · rw [value_cond_of_ne_zero hradical, hnonzero]

open Classical in
theorem value_branch (c : Poly) (t e : Form) :
    (branch c t e).value v = if c.value v = 0 then e.value v else t.value v := by
  split
  · next h => exact value_branch_of_eq_zero h t e
  · next h => exact value_branch_of_ne_zero h t e

end Form
end Meadow
