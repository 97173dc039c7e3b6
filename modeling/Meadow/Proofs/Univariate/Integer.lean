import Mathlib
import Meadow.Univariate.Integer

set_option autoImplicit false

/-!
# Integer polynomials as polynomials

A list of coefficients stands for the polynomial that Horner's rule makes of it.
An exact quotient is one (`IntPoly.toPolynomial_divExact?`): what the division has read
of the dividend is always the quotient times the divisor plus the remainder.  `primitive`
makes the primitive part with a positive leading coefficient
(`IntPoly.Trimmed.toPolynomial_primitive`).
-/

namespace Meadow

namespace IntPoly

open Polynomial

/-- The polynomial with the given coefficients. -/
noncomputable def toPolynomial (a : IntPoly) : ℤ[X] := a.foldr (fun c acc => C c + X * acc) 0

@[simp] theorem toPolynomial_nil : toPolynomial [] = 0 := rfl

theorem toPolynomial_list_cons (c : ℤ) (a : IntPoly) :
    toPolynomial (c :: a) = C c + X * toPolynomial a := rfl

theorem toPolynomial_singleton (c : ℤ) : toPolynomial [c] = C c := by
  rw [toPolynomial_list_cons, toPolynomial_nil, mul_zero, add_zero]

@[simp] theorem toPolynomial_cons (c : ℤ) (a : IntPoly) :
    toPolynomial (cons c a) = C c + X * toPolynomial a := by
  cases a with
  | nil =>
    rw [cons]
    split
    · next h => rw [h, C_0, toPolynomial_nil, mul_zero, add_zero]
    · rfl
  | cons d ds => rfl

@[simp] theorem toPolynomial_trim (cs : List ℤ) : toPolynomial (trim cs) = toPolynomial cs := by
  induction cs with
  | nil => rfl
  | cons c cs ih =>
    have hunfold : trim (c :: cs) = cons c (trim cs) := rfl
    rw [hunfold, toPolynomial_cons, ih, toPolynomial_list_cons]

theorem toPolynomial_addScaled (x : ℤ) (b c : IntPoly) :
    toPolynomial (addScaled x b c) = toPolynomial c + C x * toPolynomial b := by
  induction b generalizing c with
  | nil => rw [addScaled, toPolynomial_nil, mul_zero, add_zero]
  | cons y b ih =>
    cases c with
    | nil =>
      rw [addScaled, toPolynomial_cons, ih, toPolynomial_list_cons, toPolynomial_nil, C_mul]
      ring
    | cons z c =>
      rw [addScaled, toPolynomial_cons, ih, toPolynomial_list_cons, toPolynomial_list_cons, C_add,
        C_mul]
      ring

theorem toPolynomial_map_mul (g : ℤ) (a : IntPoly) :
    toPolynomial (a.map (g * ·)) = C g * toPolynomial a := by
  induction a with
  | nil => simp
  | cons c a ih =>
    rw [List.map_cons, toPolynomial_list_cons, ih, toPolynomial_list_cons, C_mul]
    ring

theorem toPolynomial_add (a b : IntPoly) :
    toPolynomial (add a b) = toPolynomial a + toPolynomial b := by
  induction a generalizing b with
  | nil => rw [add, toPolynomial_nil, zero_add]
  | cons x a ih =>
    cases b with
    | nil => rw [add, toPolynomial_nil, add_zero]; exact List.cons_ne_nil _ _
    | cons y b =>
      rw [add, toPolynomial_cons, ih, toPolynomial_list_cons, toPolynomial_list_cons, C_add]
      ring

theorem toPolynomial_scale (c : ℤ) (a : IntPoly) :
    toPolynomial (scale c a) = C c * toPolynomial a := by
  rw [scale, toPolynomial_trim, toPolynomial_map_mul]

theorem toPolynomial_sub (a b : IntPoly) :
    toPolynomial (sub a b) = toPolynomial a - toPolynomial b := by
  have hneg : b.map (- ·) = b.map ((-1 : ℤ) * ·) :=
    List.map_congr_left fun c _ => neg_eq_neg_one_mul c
  rw [sub, toPolynomial_add, hneg, toPolynomial_map_mul, C_neg, C_1, neg_one_mul, sub_eq_add_neg]

theorem toPolynomial_mul (a b : IntPoly) :
    toPolynomial (mul a b) = toPolynomial a * toPolynomial b := by
  induction a with
  | nil => exact (zero_mul _).symm
  | cons x a ih =>
    have hunfold : mul (x :: a) b = addScaled x b (cons 0 (mul a b)) := rfl
    rw [hunfold, toPolynomial_addScaled, toPolynomial_cons, ih, toPolynomial_list_cons, C_0]
    ring

/-- A common divisor of the coefficients is taken out. -/
theorem C_mul_toPolynomial_map_div {a : IntPoly} {d : ℤ} (h : ∀ c ∈ a, d ∣ c) :
    C d * toPolynomial (a.map (· / d)) = toPolynomial a := by
  rw [← toPolynomial_map_mul, List.map_map]
  congr 1
  conv_rhs => rw [← List.map_id a]
  exact List.map_congr_left fun c hc => Int.mul_ediv_cancel' (h c hc)

/-! ## Exact division -/

theorem toPolynomial_divideStep {b q r q' r' : IntPoly} {c : ℤ}
    (h : divideStep b c (some (q, r)) = some (q', r')) :
    toPolynomial q' * toPolynomial b + toPolynomial r'
      = C c + X * (toPolynomial q * toPolynomial b + toPolynomial r) := by
  unfold divideStep at h
  dsimp only at h
  split at h
  · rw [Option.some.injEq, Prod.mk.injEq] at h
    rw [← h.1, ← h.2, toPolynomial_cons, toPolynomial_cons, C_0]
    ring
  · split at h
    · rw [Option.some.injEq, Prod.mk.injEq] at h
      rw [← h.1, ← h.2, toPolynomial_cons, toPolynomial_addScaled, toPolynomial_cons, C_neg]
      ring
    · cases h

theorem toPolynomial_divideSteps {b : IntPoly} {a q r : IntPoly}
    (h : a.foldr (divideStep b) (some ([], [])) = some (q, r)) :
    toPolynomial a = toPolynomial q * toPolynomial b + toPolynomial r := by
  induction a generalizing q r with
  | nil =>
    rw [List.foldr_nil, Option.some.injEq, Prod.mk.injEq] at h
    rw [← h.1, ← h.2]
    simp
  | cons c a ih =>
    rw [List.foldr_cons] at h
    cases hrest : a.foldr (divideStep b) (some ([], [])) with
    | none =>
      rw [hrest] at h
      cases h
    | some qr =>
      rw [hrest] at h
      rw [toPolynomial_divideStep h, toPolynomial_list_cons, ih hrest]

/-- An exact quotient times the divisor is the dividend. -/
theorem toPolynomial_divExact? {a b q : IntPoly} (h : divExact? a b = some q) :
    toPolynomial a = toPolynomial q * toPolynomial b := by
  unfold divExact? at h
  split at h
  · cases h
  · split at h
    · cases h
    · split at h
      · next hsteps =>
        rw [Option.some.injEq] at h
        rw [toPolynomial_divideSteps hsteps, h, toPolynomial_nil, add_zero]
      · cases h

/-! ## Contents -/

theorem content_dvd {a : IntPoly} {c : ℤ} (h : c ∈ a) : (a.content : ℤ) ∣ c := by
  induction a with
  | nil => cases h
  | cons d a ih =>
    have hunfold : content (d :: a) = d.natAbs.gcd (content a) := rfl
    rw [hunfold]
    rcases List.mem_cons.1 h with rfl | h
    · exact Int.natCast_dvd.2 (Nat.gcd_dvd_left _ _)
    · exact (Int.natCast_dvd_natCast.2 (Nat.gcd_dvd_right _ _)).trans (ih h)

theorem dvd_content {a : IntPoly} {d : ℕ} (h : ∀ c ∈ a, (d : ℤ) ∣ c) : d ∣ a.content := by
  induction a with
  | nil => exact dvd_zero d
  | cons c a ih =>
    have hunfold : content (c :: a) = c.natAbs.gcd (content a) := rfl
    rw [hunfold]
    exact Nat.dvd_gcd (Int.natCast_dvd.1 (h c List.mem_cons_self))
      (ih fun e he => h e (List.mem_cons_of_mem c he))

/-- The content with the sign of the leading coefficient. -/
def unitContent (a : IntPoly) : ℤ := if a.lead < 0 then -(a.content : ℤ) else a.content

theorem primitive_eq (a : IntPoly) :
    a.primitive = if a.unitContent = 0 then a else a.map (· / a.unitContent) := rfl

theorem natAbs_unitContent (a : IntPoly) : a.unitContent.natAbs = a.content := by
  unfold unitContent
  split
  · rw [Int.natAbs_neg, Int.natAbs_natCast]
  · rw [Int.natAbs_natCast]

theorem unitContent_dvd {a : IntPoly} {c : ℤ} (h : c ∈ a) : a.unitContent ∣ c := by
  rw [← Int.natAbs_dvd, natAbs_unitContent]
  exact content_dvd h

/-- A polynomial is the content with its sign times the primitive part. -/
theorem toPolynomial_eq_unitContent_mul {a : IntPoly} (h : a.unitContent ≠ 0) :
    toPolynomial a = C a.unitContent * toPolynomial a.primitive := by
  rw [primitive_eq, if_neg h]
  exact (C_mul_toPolynomial_map_div fun c hc => unitContent_dvd hc).symm

theorem toPolynomial_eq_zero_of_unitContent {a : IntPoly} (h : a.unitContent = 0) :
    toPolynomial a = 0 := by
  have hzero : a = a.map ((0 : ℤ) * ·) := by
    conv_lhs => rw [← List.map_id a]
    refine List.map_congr_left fun c hc => ?_
    have hdvd := unitContent_dvd hc
    rw [h, zero_dvd_iff] at hdvd
    rw [hdvd, zero_mul, id]
  rw [hzero, toPolynomial_map_mul, C_0, zero_mul]

/-- A polynomial is a constant times its primitive part. -/
theorem exists_toPolynomial_primitive (a : IntPoly) :
    ∃ g : ℤ, g ≠ 0 ∧ toPolynomial a = C g * toPolynomial a.primitive := by
  by_cases h : a.unitContent = 0
  · exact ⟨1, one_ne_zero, by rw [primitive_eq, if_pos h, C_1, one_mul]⟩
  · exact ⟨_, h, toPolynomial_eq_unitContent_mul h⟩

@[simp] theorem coeff_toPolynomial (a : IntPoly) (i : ℕ) :
    (toPolynomial a).coeff i = a.getD i 0 := by
  induction a generalizing i with
  | nil => rfl
  | cons c a ih =>
    rw [toPolynomial_list_cons, coeff_add]
    cases i with
    | zero => rw [coeff_C_zero, coeff_X_mul_zero, add_zero, List.getD_cons_zero]
    | succ i => rw [coeff_C_succ, coeff_X_mul, ih, zero_add, List.getD_cons_succ]

theorem exists_coeff_eq_of_mem {a : IntPoly} {c : ℤ} (h : c ∈ a) :
    ∃ i, (toPolynomial a).coeff i = c := by
  obtain ⟨i, hi, rfl⟩ := List.mem_iff_getElem.1 h
  exact ⟨i, by rw [coeff_toPolynomial, List.getD_eq_getElem _ _ hi]⟩

theorem C_dvd_toPolynomial_iff {a : IntPoly} {d : ℤ} :
    C d ∣ toPolynomial a ↔ ∀ c ∈ a, d ∣ c := by
  rw [C_dvd_iff_dvd_coeff]
  constructor
  · intro h c hc
    obtain ⟨i, rfl⟩ := exists_coeff_eq_of_mem hc
    exact h i
  · intro h i
    rw [coeff_toPolynomial, List.getD_eq_getElem?_getD]
    cases hi : a[i]? with
    | none => exact dvd_zero d
    | some c => exact h c (List.mem_of_getElem? hi)

/-- The primitive part is primitive. -/
theorem isPrimitive_primitive {a : IntPoly} (h : toPolynomial a ≠ 0) :
    (toPolynomial a.primitive).IsPrimitive := by
  have hunit : a.unitContent ≠ 0 := fun h0 => h (toPolynomial_eq_zero_of_unitContent h0)
  intro r hr
  have hdvd : C (a.unitContent * r) ∣ toPolynomial a := by
    rw [toPolynomial_eq_unitContent_mul hunit, C_mul]
    exact mul_dvd_mul_left _ hr
  have hcontent : (a.unitContent * r).natAbs ∣ a.unitContent.natAbs := by
    rw [natAbs_unitContent]
    exact dvd_content fun c hc => Int.natAbs_dvd.2 (C_dvd_toPolynomial_iff.1 hdvd c hc)
  rw [Int.natAbs_mul] at hcontent
  have hone : r.natAbs ∣ 1 := by
    refine Nat.dvd_of_mul_dvd_mul_left (Int.natAbs_pos.2 hunit) ?_
    rwa [mul_one]
  rwa [Int.isUnit_iff_natAbs_eq, ← Nat.dvd_one]

/-! ## Leading coefficients -/

/-- The last coefficient is not zero. -/
def Trimmed (a : IntPoly) : Prop := a.getLast? ≠ some 0

theorem trimmed_nil : Trimmed [] := fun h => nomatch h

theorem Trimmed.tail {c : ℤ} {a : IntPoly} (h : Trimmed (c :: a)) : Trimmed a := by
  cases a with
  | nil => exact trimmed_nil
  | cons d a => exact h

theorem Trimmed.cons {a : IntPoly} (h : Trimmed a) (c : ℤ) : Trimmed (cons c a) := by
  cases a with
  | nil =>
    rw [IntPoly.cons]
    split
    · exact trimmed_nil
    · next hc => exact fun hlast => hc (Option.some.inj hlast)
  | cons d a => exact h

theorem Trimmed.add {a b : IntPoly} (ha : Trimmed a) (hb : Trimmed b) : Trimmed (add a b) := by
  induction a generalizing b with
  | nil => rwa [IntPoly.add]
  | cons x a ih =>
    cases b with
    | nil => exact ha
    | cons y b => exact (ih ha.tail hb.tail).cons _

theorem trimmed_trim (cs : List ℤ) : Trimmed (trim cs) := by
  induction cs with
  | nil => exact trimmed_nil
  | cons c cs ih => exact ih.cons c

theorem mem_of_mem_trim {cs : List ℤ} {c : ℤ} (h : c ∈ trim cs) : c ∈ cs := by
  induction cs with
  | nil => exact h
  | cons d cs ih =>
    have hunfold : trim (d :: cs) = cons d (trim cs) := rfl
    rw [hunfold] at h
    cases htail : trim cs with
    | nil =>
      rw [htail, cons] at h
      split at h
      · cases h
      · exact List.mem_singleton.1 h ▸ List.mem_cons_self
    | cons e es =>
      rw [htail] at h ih
      rcases List.mem_cons.1 h with rfl | h
      · exact List.mem_cons_self
      · exact List.mem_cons_of_mem d (ih h)

theorem lead_mem {a : IntPoly} (ha : a ≠ []) : a.lead ∈ a := by
  rw [lead, List.getLastD_eq_getLast?, List.getLast?_eq_some_getLast ha, Option.getD_some]
  exact List.getLast_mem ha

theorem coeff_length_sub_one (a : IntPoly) :
    (toPolynomial a).coeff (a.length - 1) = a.lead := by
  rw [coeff_toPolynomial, lead, List.getLastD_eq_getLast?, List.getLast?_eq_getElem?,
    List.getD_eq_getElem?_getD]

theorem degree_toPolynomial_lt (a : IntPoly) : (toPolynomial a).degree < a.length := by
  rw [Polynomial.degree_lt_iff_coeff_zero]
  intro i hi
  rw [coeff_toPolynomial, List.getD_eq_default _ _ (by exact_mod_cast hi)]

namespace Trimmed

variable {a : IntPoly}

theorem lead_ne_zero (h : Trimmed a) (ha : a ≠ []) : a.lead ≠ 0 := by
  intro h0
  rw [lead, List.getLastD_eq_getLast?] at h0
  obtain ⟨c, hc⟩ := Option.ne_none_iff_exists'.1 (mt List.getLast?_eq_none_iff.1 ha)
  rw [hc, Option.getD_some] at h0
  exact h (hc.trans (congrArg some h0))

theorem natDegree_eq (h : Trimmed a) (ha : a ≠ []) :
    (toPolynomial a).natDegree = a.length - 1 := by
  refine le_antisymm ?_ ?_
  · refine natDegree_le_iff_coeff_eq_zero.2 fun i hi => ?_
    rw [coeff_toPolynomial, List.getD_eq_default _ _ (by omega)]
  · refine le_natDegree_of_ne_zero ?_
    rw [coeff_length_sub_one]
    exact h.lead_ne_zero ha

theorem leadingCoeff_eq (h : Trimmed a) : (toPolynomial a).leadingCoeff = a.lead := by
  by_cases ha : a = []
  · rw [ha]
    rfl
  · rw [leadingCoeff, h.natDegree_eq ha, coeff_length_sub_one]

theorem toPolynomial_eq_zero_iff (h : Trimmed a) : toPolynomial a = 0 ↔ a = [] := by
  rw [← leadingCoeff_eq_zero, h.leadingCoeff_eq]
  constructor
  · intro h0
    by_contra ha
    exact h.lead_ne_zero ha h0
  · rintro rfl
    rfl

theorem toPolynomial_ne_zero (h : Trimmed a) (ha : a ≠ []) : toPolynomial a ≠ 0 :=
  mt h.toPolynomial_eq_zero_iff.1 ha

theorem unitContent_ne_zero (h : Trimmed a) (ha : a ≠ []) : a.unitContent ≠ 0 := fun h0 =>
  ha (h.toPolynomial_eq_zero_iff.1 (toPolynomial_eq_zero_of_unitContent h0))

/-- The leading coefficient of the primitive part is positive. -/
theorem lead_primitive_pos (h : Trimmed a) (ha : a ≠ []) : 0 < a.primitive.lead := by
  have hunit := h.unitContent_ne_zero ha
  obtain ⟨q, hq⟩ := unitContent_dvd (lead_mem ha)
  have hlead : a.primitive.lead = q := by
    rw [primitive_eq, if_neg hunit, lead, List.getLastD_eq_getLast?, List.getLast?_map,
      List.getLast?_eq_some_getLast ha, Option.map_some, Option.getD_some]
    refine Int.ediv_eq_of_eq_mul_right hunit ?_
    rw [← hq, lead, List.getLastD_eq_getLast?, List.getLast?_eq_some_getLast ha, Option.getD_some]
  have hlead0 := h.lead_ne_zero ha
  rw [hlead]
  by_contra hle
  have hunit' : a.unitContent = if a.lead < 0 then -(a.content : ℤ) else a.content := rfl
  split at hunit'
  · have hprod := mul_nonneg_of_nonpos_of_nonpos (a := a.unitContent) (by omega) (not_lt.1 hle)
    omega
  · have hprod := mul_nonpos_of_nonneg_of_nonpos (a := a.unitContent) (by omega) (not_lt.1 hle)
    omega

theorem unitContent_eq (h : Trimmed a) (ha : a ≠ []) :
    a.unitContent = a.lead.sign * a.content := by
  have hlead := h.lead_ne_zero ha
  unfold unitContent
  split
  · next hneg => rw [Int.sign_eq_neg_one_of_neg hneg, neg_one_mul]
  · next hpos => rw [Int.sign_eq_one_of_pos (by omega), one_mul]

/-- The primitive part with the sign that makes its leading coefficient positive. -/
theorem toPolynomial_primitive (h : Trimmed a) (ha : a ≠ []) :
    toPolynomial a.primitive = C a.lead.sign * (toPolynomial a).primPart := by
  have hunit := h.unitContent_ne_zero ha
  have hprimitive := isPrimitive_primitive (h.toPolynomial_ne_zero ha)
  have heq := toPolynomial_eq_unitContent_mul hunit
  have hcontent : (toPolynomial a).content = a.content := by
    rw [heq, content_C_mul, hprimitive.content_eq_one, mul_one, ← Int.abs_eq_normalize,
      Int.abs_eq_natAbs, natAbs_unitContent]
  have hcontent0 : (a.content : ℤ) ≠ 0 := fun h0 => hunit (by
    rw [h.unitContent_eq ha, h0, mul_zero])
  have hsign : a.lead.sign * a.lead.sign = 1 := by
    rcases lt_or_gt_of_ne (h.lead_ne_zero ha) with hneg | hpos
    · rw [Int.sign_eq_neg_one_of_neg hneg, neg_one_mul, neg_neg]
    · rw [Int.sign_eq_one_of_pos hpos, one_mul]
  have hsplit := (toPolynomial a).eq_C_content_mul_primPart
  rw [hcontent] at hsplit
  refine mul_left_cancel₀ (C_ne_zero.2 hcontent0) ?_
  calc C (a.content : ℤ) * toPolynomial a.primitive
      = C a.lead.sign * (C a.unitContent * toPolynomial a.primitive) := by
        rw [h.unitContent_eq ha, ← mul_assoc, ← C_mul, ← mul_assoc, hsign, one_mul]
    _ = C a.lead.sign * (C (a.content : ℤ) * (toPolynomial a).primPart) := by
        rw [← heq, ← hsplit]
    _ = C (a.content : ℤ) * (C a.lead.sign * (toPolynomial a).primPart) := mul_left_comm _ _ _

theorem primitive (h : Trimmed a) : Trimmed a.primitive := by
  by_cases ha : a = []
  · rw [ha]
    exact trimmed_nil
  · intro hlast
    have hpos := h.lead_primitive_pos ha
    rw [lead, List.getLastD_eq_getLast?, hlast] at hpos
    exact lt_irrefl _ hpos

end Trimmed

end IntPoly
end Meadow
