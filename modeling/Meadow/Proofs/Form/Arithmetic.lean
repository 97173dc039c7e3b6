import Mathlib
import Meadow.Form.Arithmetic
import Meadow.Proofs.Form.Value

set_option autoImplicit false

/-!
# Arithmetic of standard forms is exact

Each operation has the value that it is named for, also where a denominator or a
condition vanishes (`Form.value_arithmetic`).  The proofs follow the shapes of the
operands; each conditional built on the way splits the valuations in two.
-/

namespace Meadow

namespace Form

variable {K : Type*} [Field K] [CharZero K] {v : String → K}

theorem value_eq_zero_of_isZero {f : Form} (h : f.isZero = true) : f.value v = 0 := by
  rw [isZero_iff.1 h, value_zero]

theorem value_neg (f : Form) : f.neg.value v = -f.value v := by
  induction f with
  | poly p => exact Poly.value_neg v p
  | frac n d =>
    rw [neg, value_quotient, Poly.neg_def, Poly.value_neg, value_frac, neg_div]
  | cond c t e iht ihe =>
    rw [neg]
    by_cases hc : c.value v = 0
    · rw [value_branch_of_eq_zero hc, value_cond_of_eq_zero hc, ihe]
    · rw [value_branch_of_ne_zero hc, value_cond_of_ne_zero hc, iht]

/-! ## Sums -/

theorem value_addPoly (p : Poly) (f : Form) :
    (addPoly p f).value v = p.value v + f.value v := by
  induction f with
  | poly q => exact Poly.value_add v p q
  | frac n d =>
    rw [addPoly]
    by_cases hd : d.value v = 0
    · rw [value_branch_of_eq_zero hd, value_poly, value_frac, hd, div_zero, add_zero]
    · rw [value_branch_of_ne_zero hd, value_quotient, Poly.mul_def, Poly.add_def, Poly.value_add,
        Poly.value_mul, value_frac, add_div, mul_div_cancel_right₀ _ hd]
  | cond c t e iht ihe =>
    rw [addPoly]
    by_cases hc : c.value v = 0
    · rw [value_branch_of_eq_zero hc, value_cond_of_eq_zero hc, ihe]
    · rw [value_branch_of_ne_zero hc, value_cond_of_ne_zero hc, iht]

theorem value_addFrac (n d : Poly) (f : Form) :
    (addFrac n d f).value v = n.value v / d.value v + f.value v := by
  induction f with
  | poly q =>
    unfold addFrac
    split
    · next h => rw [value_frac, value_poly, Poly.isZero_iff.1 h, Poly.value_zero, add_zero]
    · rw [value_addPoly, value_frac, value_poly, add_comm]
  | frac n' d' =>
    unfold addFrac
    split
    · next h =>
      rw [value_quotient, Poly.add_def, Poly.value_add, value_frac, ← h, add_div]
    · by_cases hd : d.value v = 0
      · rw [value_branch_of_eq_zero hd, hd, div_zero, zero_add]
      · rw [value_branch_of_ne_zero hd]
        by_cases hd' : d'.value v = 0
        · rw [value_branch_of_eq_zero hd', value_frac, value_frac, hd', div_zero, add_zero]
        · rw [value_branch_of_ne_zero hd', value_quotient, value_frac, div_add_div _ _ hd hd']
          simp only [Poly.mul_def, Poly.add_def, Poly.value_add, Poly.value_mul]
  | cond c t e iht ihe =>
    unfold addFrac
    split
    · next h =>
      by_cases hc : c.value v = 0
      · rw [value_branch_of_eq_zero hc, value_cond_of_eq_zero hc, h, hc, div_zero, zero_add]
      · rw [value_branch_of_ne_zero hc, value_cond_of_ne_zero hc, iht]
    · have hbranch (g : Form) (hg : (addFrac n d g).value v = n.value v / d.value v + g.value v) :
          (branch d (addFrac n d g) g).value v = n.value v / d.value v + g.value v := by
        by_cases hd : d.value v = 0
        · rw [value_branch_of_eq_zero hd, hd, div_zero, zero_add]
        · rw [value_branch_of_ne_zero hd, hg]
      by_cases hc : c.value v = 0
      · rw [value_branch_of_eq_zero hc, value_cond_of_eq_zero hc, hbranch e ihe]
      · rw [value_branch_of_ne_zero hc, value_cond_of_ne_zero hc, hbranch t iht]

theorem value_add (a b : Form) : (a.add b).value v = a.value v + b.value v := by
  induction a generalizing b with
  | poly p =>
    unfold add
    split
    · next h => rw [value_poly, Poly.isZero_iff.1 h, Poly.value_zero, zero_add]
    · rw [value_addPoly, value_poly]
  | frac n d => rw [add, value_addFrac, value_frac]
  | cond c t e iht ihe =>
    cases b with
    | poly q =>
      rw [add]
      split
      · next h => rw [value_poly, Poly.isZero_iff.1 h, Poly.value_zero, add_zero]
      · rw [value_addPoly, value_poly, add_comm]
    | frac n d => rw [add, value_addFrac, value_frac, add_comm]
    | cond c' t' e' =>
      rw [add]
      split
      · next h =>
        subst h
        by_cases hc : c.value v = 0
        · rw [value_branch_of_eq_zero hc, value_cond_of_eq_zero hc, value_cond_of_eq_zero hc, ihe]
        · rw [value_branch_of_ne_zero hc, value_cond_of_ne_zero hc, value_cond_of_ne_zero hc, iht]
      · by_cases hc : c.value v = 0
        · rw [value_branch_of_eq_zero hc, value_cond_of_eq_zero hc, ihe]
        · rw [value_branch_of_ne_zero hc, value_cond_of_ne_zero hc, iht]

theorem value_sub (a b : Form) : (a.sub b).value v = a.value v - b.value v := by
  unfold sub
  split
  · next h => rw [value_neg, value_eq_zero_of_isZero h, zero_sub]
  · split
    · next h => rw [value_eq_zero_of_isZero h, sub_zero]
    · rw [value_add, value_neg, sub_eq_add_neg]

/-! ## Products -/

theorem value_mulPoly (p : Poly) (f : Form) :
    (mulPoly p f).value v = p.value v * f.value v := by
  induction f with
  | poly q => exact Poly.value_mul v p q
  | frac n d =>
    rw [mulPoly, value_quotient, Poly.mul_def, Poly.value_mul, value_frac, mul_div_assoc]
  | cond c t e iht ihe =>
    rw [mulPoly]
    by_cases hc : c.value v = 0
    · rw [value_branch_of_eq_zero hc, value_cond_of_eq_zero hc, ihe]
    · rw [value_branch_of_ne_zero hc, value_cond_of_ne_zero hc, iht]

theorem value_mulFrac (n d : Poly) (f : Form) :
    (mulFrac n d f).value v = n.value v / d.value v * f.value v := by
  induction f with
  | poly q =>
    unfold mulFrac
    split
    · next h => rw [value_zero, value_poly, Poly.isZero_iff.1 h, Poly.value_zero, mul_zero]
    · split
      · next h => rw [value_frac, value_poly, Poly.isOne_iff.1 h, Poly.value_one, mul_one]
      · rw [value_quotient, Poly.mul_def, Poly.value_mul, value_poly, mul_div_assoc, mul_comm]
  | frac n' d' =>
    rw [mulFrac, value_quotient, value_frac, div_mul_div_comm]
    simp only [Poly.mul_def, Poly.value_mul]
  | cond c t e iht ihe =>
    rw [mulFrac]
    by_cases hc : c.value v = 0
    · rw [value_branch_of_eq_zero hc, value_cond_of_eq_zero hc]
      split
      · next h => rw [value_zero, h, hc, div_zero, zero_mul]
      · exact ihe
    · rw [value_branch_of_ne_zero hc, value_cond_of_ne_zero hc, iht]

theorem value_mul (a b : Form) : (a.mul b).value v = a.value v * b.value v := by
  induction a generalizing b with
  | poly p =>
    unfold mul
    split
    · next h => rw [value_zero, value_poly, Poly.isZero_iff.1 h, Poly.value_zero, zero_mul]
    · split
      · next h => rw [value_poly, Poly.isOne_iff.1 h, Poly.value_one, one_mul]
      · rw [value_mulPoly, value_poly]
  | frac n d => rw [mul, value_mulFrac, value_frac]
  | cond c t e iht ihe =>
    cases b with
    | poly q =>
      rw [mul]
      split
      · next h => rw [value_zero, value_poly, Poly.isZero_iff.1 h, Poly.value_zero, mul_zero]
      · split
        · next h => rw [value_poly, Poly.isOne_iff.1 h, Poly.value_one, mul_one]
        · rw [value_mulPoly, value_poly, mul_comm]
    | frac n d => rw [mul, value_mulFrac, value_frac, mul_comm]
    | cond c' t' e' =>
      rw [mul]
      split
      · next h =>
        subst h
        by_cases hc : c.value v = 0
        · rw [value_branch_of_eq_zero hc, value_cond_of_eq_zero hc, value_cond_of_eq_zero hc, ihe]
        · rw [value_branch_of_ne_zero hc, value_cond_of_ne_zero hc, value_cond_of_ne_zero hc, iht]
      · by_cases hc : c.value v = 0
        · rw [value_branch_of_eq_zero hc, value_cond_of_eq_zero hc, ihe]
        · rw [value_branch_of_ne_zero hc, value_cond_of_ne_zero hc, iht]

/-! ## Quotients -/

theorem value_divPoly (p : Poly) (f : Form) :
    (divPoly p f).value v = p.value v / f.value v := by
  induction f with
  | poly q => exact value_quotient p q
  | frac n d =>
    rw [divPoly, value_quotient, Poly.mul_def, Poly.value_mul, value_frac, div_div_eq_mul_div]
  | cond c t e iht ihe =>
    rw [divPoly]
    by_cases hc : c.value v = 0
    · rw [value_branch_of_eq_zero hc, value_cond_of_eq_zero hc, ihe]
    · rw [value_branch_of_ne_zero hc, value_cond_of_ne_zero hc, iht]

theorem value_divFrac (n d : Poly) (f : Form) :
    (divFrac n d f).value v = n.value v / d.value v / f.value v := by
  induction f with
  | poly q =>
    unfold divFrac
    split
    · next h => rw [value_zero, value_poly, Poly.isZero_iff.1 h, Poly.value_zero, div_zero]
    · split
      · next h => rw [value_frac, value_poly, Poly.isOne_iff.1 h, Poly.value_one, div_one]
      · rw [value_quotient, Poly.mul_def, Poly.value_mul, value_poly, div_div]
  | frac n' d' =>
    rw [divFrac, value_quotient, value_frac, div_div_div_eq]
    simp only [Poly.mul_def, Poly.value_mul]
  | cond c t e iht ihe =>
    rw [divFrac]
    by_cases hc : c.value v = 0
    · rw [value_branch_of_eq_zero hc, value_cond_of_eq_zero hc]
      split
      · next h => rw [value_zero, h, hc, div_zero, zero_div]
      · exact ihe
    · rw [value_branch_of_ne_zero hc, value_cond_of_ne_zero hc, iht]

theorem value_div (a b : Form) : (a.div b).value v = a.value v / b.value v := by
  induction a generalizing b with
  | poly p => rw [div, value_divPoly, value_poly]
  | frac n d => rw [div, value_divFrac, value_frac]
  | cond c t e iht ihe =>
    have hbranch : (branch c (t.div b) (e.div b)).value v = (cond c t e).value v / b.value v := by
      by_cases hc : c.value v = 0
      · rw [value_branch_of_eq_zero hc, value_cond_of_eq_zero hc, ihe]
      · rw [value_branch_of_ne_zero hc, value_cond_of_ne_zero hc, iht]
    unfold div
    split
    · next h => rw [value_zero, value_eq_zero_of_isZero h, div_zero]
    · split
      · next h => rw [isOne_iff.1 h, value_one, div_one]
      · split
        · next c' t' e' =>
          split
          · next h =>
            subst h
            by_cases hc : c.value v = 0
            · rw [value_branch_of_eq_zero hc, value_cond_of_eq_zero hc, value_cond_of_eq_zero hc,
                ihe]
            · rw [value_branch_of_ne_zero hc, value_cond_of_ne_zero hc, value_cond_of_ne_zero hc,
                iht]
          · exact hbranch
        · exact hbranch

open Classical in
/-- All operations on standard forms have the values that they are named for, at every
valuation in every field of characteristic zero. -/
theorem value_arithmetic {F : Type*} [Field F] [CharZero F] (v : String → F) :
    (∀ a : Form, a.neg.value v = -a.value v) ∧
    (∀ a b : Form, (a.add b).value v = a.value v + b.value v) ∧
    (∀ a b : Form, (a.sub b).value v = a.value v - b.value v) ∧
    (∀ a b : Form, (a.mul b).value v = a.value v * b.value v) ∧
    (∀ a b : Form, (a.div b).value v = a.value v / b.value v) ∧
    (∀ n d : Poly, (quotient n d).value v = n.value v / d.value v) ∧
    (∀ (c : Poly) (t e : Form),
      (branch c t e).value v = if c.value v = 0 then e.value v else t.value v) :=
  ⟨value_neg, value_add, value_sub, value_mul, value_div, value_quotient, value_branch⟩

end Form
end Meadow
