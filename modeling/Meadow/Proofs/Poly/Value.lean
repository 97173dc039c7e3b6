import Mathlib
import Meadow.Proofs.Poly.Degree

set_option autoImplicit false

/-!
# Values of polynomials

A polynomial has a value at every valuation of the variables in a field.  In a
field of characteristic zero the value is a homomorphism (`Poly.valueHom`), so all
operations are described by what they do to values.
-/

namespace Meadow

variable {K : Type*} [Field K]

/-- The value of a monomial: the product of the powers of the variables' values. -/
def Monomial.value (v : String → K) (m : Monomial) : K :=
  (m.powers.map fun w => v w.1 ^ w.2).prod

/-- The value of a polynomial: the sum of the values of its terms. -/
def Poly.value (v : String → K) (p : Poly) : K :=
  (p.terms.map fun t => (t.2 : K) * t.1.value v).sum

namespace Poly

variable [CharZero K]

/-- The value at a valuation, as a homomorphism. -/
noncomputable def valueHom (v : String → K) : Poly →+* K :=
  (MvPolynomial.aeval v : MvPolynomial String ℚ →ₐ[ℚ] K).toRingHom.comp toMvHom

theorem valueHom_apply (v : String → K) (p : Poly) : valueHom v p = p.value v := by
  have main (ts : List (Monomial × ℚ)) :
      MvPolynomial.aeval v (ts.map fun t => MvPolynomial.monomial t.1.toFinsupp t.2).sum
        = (ts.map fun t => (t.2 : K) * t.1.value v).sum := by
    induction ts with
    | nil => simp
    | cons t ts ih =>
      rw [List.map_cons, List.sum_cons, map_add, ih, MvPolynomial.aeval_monomial,
        List.map_cons, List.sum_cons, Monomial.value,
          Monomial.prod_powers _ fun w => pow_zero (v w), eq_ratCast]
  exact main p.terms

variable (v : String → K)

@[simp] theorem value_zero : (0 : Poly).value v = 0 := by
  rw [← valueHom_apply, map_zero]

@[simp] theorem value_one : (1 : Poly).value v = 1 := by
  rw [← valueHom_apply, map_one]

@[simp] theorem value_add (p q : Poly) : (p + q).value v = p.value v + q.value v := by
  rw [← valueHom_apply, map_add, valueHom_apply, valueHom_apply]

@[simp] theorem value_mul (p q : Poly) : (p * q).value v = p.value v * q.value v := by
  rw [← valueHom_apply, map_mul, valueHom_apply, valueHom_apply]

@[simp] theorem value_neg (p : Poly) : (-p).value v = -p.value v := by
  rw [← valueHom_apply, map_neg, valueHom_apply]

@[simp] theorem value_sub (p q : Poly) : (p - q).value v = p.value v - q.value v := by
  rw [← valueHom_apply, map_sub, valueHom_apply, valueHom_apply]

@[simp] theorem value_pow (p : Poly) (n : ℕ) : (p ^ n).value v = p.value v ^ n := by
  rw [← valueHom_apply, map_pow, valueHom_apply]

@[simp] theorem value_constant (c : ℚ) : (constant c).value v = c := by
  rw [← valueHom_apply]
  change MvPolynomial.aeval v (constant c).toMv = _
  rw [toMv_constant, MvPolynomial.aeval_C, eq_ratCast]

@[simp] theorem value_var (w : String) : (var w).value v = v w := by
  rw [← valueHom_apply]
  change MvPolynomial.aeval v (var w).toMv = _
  rw [toMv_var, MvPolynomial.aeval_X]

@[simp] theorem value_scale (c : ℚ) (p : Poly) : (p.scale c).value v = c * p.value v := by
  rw [scale_eq_mul, value_mul, value_constant]

/-- Every homomorphism into a field is the value at a valuation. -/
theorem apply_eq_value (f : Poly →+* K) (p : Poly) : f p = p.value fun x => f (var x) := by
  have heq : f.comp toMvEquiv.symm.toRingHom
      = (valueHom fun x => f (var x)).comp toMvEquiv.symm.toRingHom := by
    refine MvPolynomial.ringHom_ext (fun c => ?_) fun x => ?_
    · exact RingHom.congr_fun (Subsingleton.elim
        ((f.comp toMvEquiv.symm.toRingHom).comp MvPolynomial.C)
        (((valueHom fun x => f (var x)).comp toMvEquiv.symm.toRingHom).comp MvPolynomial.C)) c
    · have hx : toMvEquiv.symm (MvPolynomial.X x) = var x := by
        rw [RingEquiv.symm_apply_eq]
        exact (toMv_var x).symm
      change f (toMvEquiv.symm (MvPolynomial.X x))
        = valueHom (fun x => f (var x)) (toMvEquiv.symm (MvPolynomial.X x))
      rw [hx, valueHom_apply, value_var]
  have happly := RingHom.congr_fun heq (toMvEquiv p)
  change f (toMvEquiv.symm (toMvEquiv p)) = valueHom _ (toMvEquiv.symm (toMvEquiv p)) at happly
  rwa [RingEquiv.symm_apply_apply, valueHom_apply] at happly

omit [CharZero K] in
/-- The value depends only on the variables that occur. -/
theorem value_congr {v w : String → K} {p : Poly} (h : ∀ x, p.degreeIn x ≠ 0 → v x = w x) :
    p.value v = p.value w := by
  refine congrArg List.sum (List.map_congr_left fun t ht => ?_)
  congr 1
  refine congrArg List.prod (List.map_congr_left fun x hx => ?_)
  rw [h x.1 (degreeIn_pos_of_mem_powers ht hx).ne']

theorem value_eq_zero_of_dvd {p q : Poly} (h : p ∣ q) (hp : p.value v = 0) :
    q.value v = 0 := by
  obtain ⟨r, rfl⟩ := h
  rw [value_mul, hp, zero_mul]

omit [CharZero K] in
/-- Putting zero for a variable that is zero changes no value. -/
theorem value_substituteZero {w : String} (hw : v w = 0) (p : Poly) :
    (p.substituteZero w).value v = p.value v := by
  have main (ts : List (Monomial × ℚ)) :
      ((ts.filter fun t => t.1.exponent w == 0).map fun t => (t.2 : K) * t.1.value v).sum
        = (ts.map fun t => (t.2 : K) * t.1.value v).sum := by
    induction ts with
    | nil => rfl
    | cons t ts ih =>
      rw [List.map_cons, List.sum_cons, ← ih]
      by_cases ht : t.1.exponent w = 0
      · rw [List.filter_cons_of_pos (by simpa using ht), List.map_cons, List.sum_cons]
      · have hzero : t.1.value v = 0 := by
          refine List.prod_eq_zero (List.mem_map.2 ⟨(w, t.1.exponent w), ?_, ?_⟩)
          · exact FinSupp.mem_entries_iff.2 ⟨rfl, ht⟩
          · rw [hw, zero_pow ht]
        rw [List.filter_cons_of_neg (by simpa using ht), hzero, mul_zero, zero_add]
  exact main p.terms

end Poly
end Meadow
