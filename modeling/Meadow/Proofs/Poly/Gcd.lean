import Mathlib
import Meadow.Poly.Gcd
import Meadow.Proofs.Poly.Expansion
import Meadow.Proofs.Poly.Normalized
import Meadow.Proofs.Poly.Primitive

set_option autoImplicit false

/-!
# Greatest common divisors

The computed divisor is the greatest one: what divides it are exactly the common
divisors (`Poly.isGcd_gcd`).  The proof goes over the variables.  Over one of
them, contents are greatest common divisors of coefficients, and a pseudo-remainder
has, up to its content, the same common divisors with the divisor as the dividend.
-/

namespace Meadow

namespace Poly

/-! ## Polynomials in given variables -/

/-- Only the listed variables occur. -/
def Over (vs : List String) (p : Poly) : Prop := ∀ x, x ∉ vs → p.degreeIn x = 0

namespace Over

variable {vs : List String} {w : String} {p q : Poly}

theorem zero : Over vs 0 := fun _ _ => rfl

theorem add (hp : Over vs p) (hq : Over vs q) : Over vs (p + q) := by
  intro x hx
  have hle := degreeIn_add_le p q x
  rw [hp x hx, hq x hx] at hle
  omega

theorem mul (hp : Over vs p) (hq : Over vs q) : Over vs (p * q) := by
  intro x hx
  have hle := degreeIn_mul_le p q x
  rw [hp x hx, hq x hx] at hle
  omega

theorem neg (hp : Over vs p) : Over vs (-p) := by
  have hconst : Over vs (constant (-1)) := fun x _ => degreeIn_constant _ x
  have heq : -p = constant (-1) * p := by rw [← scale_eq_mul]; rfl
  rw [heq]
  exact hconst.mul hp

theorem sub (hp : Over vs p) (hq : Over vs q) : Over vs (p - q) := by
  rw [sub_eq_add_neg]
  exact hp.add hq.neg

theorem of_dvd (hq : Over vs q) (h0 : q ≠ 0) (h : p ∣ q) : Over vs p := fun x hx =>
  degreeIn_eq_zero_of_dvd h0 (hq x hx) h

theorem of_isGcd {g : Poly} (hp : Over vs p) (hq : Over vs q) (h : IsGcd g p q) : Over vs g := by
  by_cases hp0 : p = 0
  · by_cases hq0 : q = 0
    · have h0 : (0 : Poly) ∣ g := (h 0).2 ⟨by rw [hp0], by rw [hq0]⟩
      rw [zero_dvd_iff.1 h0]
      exact zero
    · exact hq.of_dvd hq0 h.dvd_right
  · exact hp.of_dvd hp0 h.dvd_left

theorem cons_of_degreeIn_eq_zero (hp : Over (w :: vs) p) (h : p.degreeIn w = 0) : Over vs p := by
  intro x hx
  by_cases hxw : x = w
  · rw [hxw, h]
  · exact hp x (by simp [hxw, hx])

theorem coefficientIn (hp : Over vs p) (i : ℕ) : Over vs (p.coefficientIn w i) := by
  intro x hx
  refine Nat.le_zero.1 ?_
  rw [Poly.coefficientIn, ofTerms_eq_sum, List.map_map]
  refine degreeIn_sum_le ?_
  intro r hr
  obtain ⟨t, ht, rfl⟩ := List.mem_map.1 hr
  have hmem := (List.mem_filter.1 ht).1
  have hne : p.coeff t.1 ≠ 0 := coeff_ne_zero_of_mem hmem
  have hle := exponent_le_degreeIn hne x
  rw [hp x hx] at hle
  refine (degreeIn_monomial_le _ _ _).trans ?_
  rw [Monomial.exponent_without]
  split
  · exact le_rfl
  · exact hle

theorem coefficientIn_tail (hp : Over (w :: vs) p) (i : ℕ) : Over vs (p.coefficientIn w i) :=
  (hp.coefficientIn i).cons_of_degreeIn_eq_zero (degreeIn_coefficientIn p w i)

end Over

theorem over_vars (p : Poly) : Over p.vars p := by
  intro x hx
  rw [mem_vars_iff] at hx
  omega

/-! ## Contents -/

/-- A function finds greatest common divisors of polynomials in given variables. -/
def FindsGcd (vs : List String) (g : Poly → Poly → Poly) : Prop :=
  ∀ a b, Over vs a → Over vs b → IsGcd (g a b) a b

section Content

variable {vs : List String} {g : Poly → Poly → Poly} {w : String} {p : Poly}

theorem dvd_foldl_gcd_iff {ι : Type} (hg : FindsGcd vs g) {es : List (ι × Poly)}
    (hes : ∀ e ∈ es, Over vs e.2) {acc : Poly} (hacc : Over vs acc) (d : Poly) :
    d ∣ es.foldl (fun acc e => if acc.isOne then acc else g acc e.2) acc ↔
      d ∣ acc ∧ ∀ e ∈ es, d ∣ e.2 := by
  induction es generalizing acc with
  | nil => simp
  | cons e es ih =>
    have he := hes e List.mem_cons_self
    have hrest := fun e' h => hes e' (List.mem_cons_of_mem e h)
    rw [List.foldl_cons, List.forall_mem_cons]
    split
    · next h =>
      rw [ih hrest hacc, isOne_iff.1 h]
      apply and_congr_right
      intro hd
      exact ⟨fun h' => ⟨hd.trans (one_dvd _), h'⟩, fun h' => h'.2⟩
    · rw [ih hrest (hacc.of_isGcd he (hg acc e.2 hacc he)), hg acc e.2 hacc he d, and_assoc]

/-- The content is the greatest common divisor of the coefficients. -/
theorem dvd_contentBy_iff (hg : FindsGcd vs g) (hp : Over (w :: vs) p) (d : Poly) :
    d ∣ contentBy g p w ↔ ∀ i, d ∣ p.coefficientIn w i := by
  have hes : ∀ e ∈ (p.expandIn w).entries, Over vs e.2 := by
    rintro ⟨i, c⟩ he
    rw [FinSupp.mem_entries_iff, get_expandIn] at he
    rw [← he.1]
    exact hp.coefficientIn_tail i
  refine (dvd_foldl_gcd_iff hg hes Over.zero d).trans ?_
  rw [and_iff_right (dvd_zero d)]
  exact forall_mem_expandIn_iff

theorem contentBy_dvd_coefficientIn (hg : FindsGcd vs g) (hp : Over (w :: vs) p) (i : ℕ) :
    contentBy g p w ∣ p.coefficientIn w i :=
  (dvd_contentBy_iff hg hp _).1 dvd_rfl i

theorem contentBy_ne_zero (hg : FindsGcd vs g) (hp : Over (w :: vs) p) (h0 : p ≠ 0) :
    contentBy g p w ≠ 0 :=
  ne_zero_of_dvd_ne_zero (leadingCoefficientIn_ne_zero h0 w)
    (contentBy_dvd_coefficientIn hg hp _)

theorem degreeIn_contentBy (hg : FindsGcd vs g) (hp : Over (w :: vs) p) (h0 : p ≠ 0) :
    (contentBy g p w).degreeIn w = 0 :=
  degreeIn_eq_zero_of_dvd (leadingCoefficientIn_ne_zero h0 w) (degreeIn_coefficientIn p w _)
    (contentBy_dvd_coefficientIn hg hp _)

theorem over_contentBy (hg : FindsGcd vs g) (hp : Over (w :: vs) p) (h0 : p ≠ 0) :
    Over vs (contentBy g p w) :=
  (hp.coefficientIn_tail _).of_dvd (leadingCoefficientIn_ne_zero h0 w)
    (contentBy_dvd_coefficientIn hg hp _)

/-- A polynomial free of the variable divides another exactly when it divides the
content. -/
theorem dvd_contentBy_iff_dvd (hg : FindsGcd vs g) (hp : Over (w :: vs) p) {d : Poly}
    (hd : d.degreeIn w = 0) : d ∣ contentBy g p w ↔ d ∣ p :=
  (dvd_contentBy_iff hg hp d).trans (dvd_iff_dvd_coefficientIn hd).symm

/-- A polynomial split into its content over a variable and its primitive part. -/
structure IsSplit (w : String) (p c q : Poly) : Prop where
  eq_mul : p = c * q
  free : c.degreeIn w = 0
  ne_zero : c ≠ 0
  primitive : PrimitiveIn w q

namespace IsSplit

variable {c q : Poly}

theorem degreeIn_primitive (h : IsSplit w p c q) : q.degreeIn w = p.degreeIn w := by
  have hmul := degreeIn_mul h.ne_zero h.primitive.ne_zero w
  rw [← h.eq_mul, h.free, zero_add] at hmul
  exact hmul.symm

theorem content_dvd (h : IsSplit w p c q) : c ∣ p := ⟨q, h.eq_mul⟩

theorem primitive_dvd (h : IsSplit w p c q) : q ∣ p := ⟨c, h.eq_mul.trans (mul_comm c q)⟩

theorem over_content (h : IsSplit w p c q) (hp : Over (w :: vs) p) (h0 : p ≠ 0) : Over vs c :=
  (hp.of_dvd h0 h.content_dvd).cons_of_degreeIn_eq_zero h.free

theorem over_primitive (h : IsSplit w p c q) (hp : Over (w :: vs) p) (h0 : p ≠ 0) :
    Over (w :: vs) q := hp.of_dvd h0 h.primitive_dvd

end IsSplit

theorem isSplit_splitContentBy (hg : FindsGcd vs g) (hp : Over (w :: vs) p) (h0 : p ≠ 0) :
    IsSplit w p (splitContentBy g p w).1 (splitContentBy g p w).2 := by
  have hfree := degreeIn_contentBy hg hp h0
  have hne := contentBy_ne_zero hg hp h0
  unfold splitContentBy
  dsimp only
  by_cases hone : contentBy g p w = 1
  · rw [if_pos (by rw [isOne_iff.2 hone, Bool.or_true])]
    refine ⟨(one_mul p).symm, degreeIn_one w, one_ne_zero, fun d hd hdp => ?_⟩
    refine isUnit_of_dvd_one ?_
    rw [← hone]
    exact (dvd_contentBy_iff_dvd hg hp hd).2 hdp
  · have hcond : ¬ ((contentBy g p w).isZero || (contentBy g p w).isOne) = true := by
      rw [Bool.or_eq_true, isZero_iff, isOne_iff]
      exact not_or.2 ⟨hne, hone⟩
    obtain ⟨q, hq⟩ := (dvd_contentBy_iff_dvd hg hp hfree).1 dvd_rfl
    rw [mul_comm] at hq
    rw [if_neg hcond, divExact?_eq_some_iff.2 ⟨hne, hq⟩, Option.getD_some]
    refine ⟨hq.trans (mul_comm _ _), hfree, hne, fun d hd hdq => ?_⟩
    have hdvd : d * contentBy g p w ∣ contentBy g p w := by
      rw [dvd_contentBy_iff_dvd hg hp]
      · conv_rhs => rw [hq]
        exact mul_dvd_mul_right hdq _
      · have hd0 : d ≠ 0 := by
          rintro rfl
          have hq0 : q = 0 := zero_dvd_iff.1 hdq
          exact h0 (by rw [hq, hq0, zero_mul])
        rw [degreeIn_mul hd0 hne, hd, hfree]
    have hone : d * contentBy g p w ∣ 1 * contentBy g p w := by rwa [one_mul]
    exact isUnit_of_dvd_one ((mul_dvd_mul_iff_right hne).1 hone)

/-- The canonical primitive part is primitive, and the polynomial a multiple of it by
a factor free of the variable. -/
theorem isSplit_primitiveBy (hg : FindsGcd vs g) (hp : Over (w :: vs) p) (h0 : p ≠ 0) :
    ∃ c, IsSplit w p c (primitiveBy g p w) := by
  have hsplit := isSplit_splitContentBy hg hp h0
  set c := (splitContentBy g p w).1
  set q := (splitContentBy g p w).2
  obtain ⟨u, hu⟩ := (associated_normalized q).symm
  have hu0 : (u : Poly) ≠ 0 := u.ne_zero
  refine ⟨c * u, ?_, ?_, mul_ne_zero hsplit.ne_zero hu0,
    hsplit.primitive.of_dvd (associated_normalized q).symm.dvd⟩
  · rw [mul_assoc, mul_comm (u : Poly), primitiveBy, hu]
    exact hsplit.eq_mul
  · rw [degreeIn_mul hsplit.ne_zero hu0, hsplit.free,
      isConstant_iff_degreeIn.1 (isUnit_iff.1 u.isUnit).1 w]

end Content

/-! ## Pseudo-remainders -/

section Remainder

variable {w : String}

/-- The highest power of the variable is cancelled. -/
theorem degreeIn_cancel_lt {g r : Poly} (hr : r ≠ 0) (hg : g ≠ 0)
    (hle : g.degreeIn w ≤ r.degreeIn w)
    (hne : g.leadingCoefficientIn w * r - r.leadingCoefficientIn w
      * monomial (.power w (r.degreeIn w - g.degreeIn w)) 1 * g ≠ 0) :
    (g.leadingCoefficientIn w * r - r.leadingCoefficientIn w
      * monomial (.power w (r.degreeIn w - g.degreeIn w)) 1 * g).degreeIn w < r.degreeIn w := by
  have hlg := leadingCoefficientIn_ne_zero hg w
  have hlr := leadingCoefficientIn_ne_zero hr w
  have hR : inVar w r ≠ 0 := fun h => hr (inVar_eq_zero_iff.1 h)
  have hG : inVar w g ≠ 0 := fun h => hg (inVar_eq_zero_iff.1 h)
  have hfree (p : Poly) : inVar w (p.leadingCoefficientIn w)
      = Polynomial.C (p.leadingCoefficientIn w) := inVar_of_free (degreeIn_coefficientIn p w _)
  have hX : (Polynomial.X : Polynomial Poly) ^ (r.degreeIn w - g.degreeIn w) ≠ 0 :=
    pow_ne_zero _ Polynomial.X_ne_zero
  rw [Ne, ← inVar_eq_zero_iff (w := w)] at hne
  rw [← natDegree_inVar]
  have himage : inVar w (g.leadingCoefficientIn w * r - r.leadingCoefficientIn w
      * monomial (.power w (r.degreeIn w - g.degreeIn w)) 1 * g)
      = Polynomial.C (g.leadingCoefficientIn w) * inVar w r
        - Polynomial.C (r.leadingCoefficientIn w)
          * Polynomial.X ^ (r.degreeIn w - g.degreeIn w) * inVar w g := by
    rw [map_sub, map_mul, map_mul, map_mul, hfree, hfree, monomial_power, map_pow, inVar_var,
      if_pos rfl]
  have hCg : Polynomial.C (g.leadingCoefficientIn w) ≠ 0 := Polynomial.C_ne_zero.2 hlg
  have hCr : Polynomial.C (r.leadingCoefficientIn w) ≠ 0 := Polynomial.C_ne_zero.2 hlr
  have hdeg : (Polynomial.C (g.leadingCoefficientIn w) * inVar w r).natDegree
      = r.degreeIn w := by
    rw [Polynomial.natDegree_mul hCg hR, Polynomial.natDegree_C, natDegree_inVar, zero_add]
  have hdeg' : (Polynomial.C (r.leadingCoefficientIn w)
      * Polynomial.X ^ (r.degreeIn w - g.degreeIn w) * inVar w g).natDegree = r.degreeIn w := by
    rw [Polynomial.natDegree_mul (mul_ne_zero hCr hX) hG, Polynomial.natDegree_mul hCr hX,
      Polynomial.natDegree_C, Polynomial.natDegree_X_pow, natDegree_inVar]
    omega
  rw [himage] at hne ⊢
  conv_rhs => rw [← hdeg]
  refine Polynomial.natDegree_lt_natDegree hne (Polynomial.degree_sub_lt_left ?_ ?_ ?_)
  · rw [Polynomial.degree_eq_natDegree (mul_ne_zero hCg hR), hdeg,
      Polynomial.degree_eq_natDegree (mul_ne_zero (mul_ne_zero hCr hX) hG), hdeg']
  · exact mul_ne_zero hCg hR
  · rw [Polynomial.leadingCoeff_mul, Polynomial.leadingCoeff_mul, Polynomial.leadingCoeff_mul,
      Polynomial.leadingCoeff_C, Polynomial.leadingCoeff_C, Polynomial.leadingCoeff_X_pow,
      leadingCoeff_inVar, leadingCoeff_inVar]
    ring

theorem leadingCoefficientIn_mulTerm_mul (r g : Poly) (m : Monomial) :
    ((r.leadingCoefficientIn w).mulTerm m 1).mul g
      = r.leadingCoefficientIn w * monomial m 1 * g := by
  rw [mulTerm_eq_mul, mul_def, mul_comm (monomial m 1)]

/-- A pseudo-remainder is what is left of a multiple of the dividend, and its degree
is below that of the divisor. -/
theorem exists_pseudoRemainder {vs : List String} {g : Poly} (hpos : 0 < g.degreeIn w)
    (hg : Over vs g) (hw : w ∈ vs) {steps : ℕ} {r : Poly} (hr : Over vs r)
    (hsteps : r.degreeIn w < g.degreeIn w + steps) :
    Over vs (pseudoRemainder w g steps r) ∧
    (pseudoRemainder w g steps r = 0 ∨
      (pseudoRemainder w g steps r).degreeIn w < g.degreeIn w) ∧
    ∃ c s, c.degreeIn w = 0 ∧ c ≠ 0 ∧ c * r = s * g + pseudoRemainder w g steps r := by
  have hg0 : g ≠ 0 := by
    rintro rfl
    exact absurd hpos (lt_irrefl 0)
  induction steps generalizing r with
  | zero => exact ⟨hr, Or.inr hsteps, 1, 0, degreeIn_one w, one_ne_zero, by
      rw [pseudoRemainder]; ring⟩
  | succ steps ih =>
    unfold pseudoRemainder
    split
    · next h =>
      rw [Bool.or_eq_true, isZero_iff, decide_eq_true_eq] at h
      exact ⟨hr, h, 1, 0, degreeIn_one w, one_ne_zero, by ring⟩
    · next h =>
      rw [Bool.or_eq_true, isZero_iff, decide_eq_true_eq, not_or, not_lt] at h
      obtain ⟨hr0, hle⟩ := h
      dsimp only
      rw [leadingCoefficientIn_mulTerm_mul, mul_def, sub_def]
      have hpower : Over vs (monomial (.power w (r.degreeIn w - g.degreeIn w)) 1) := by
        intro x hx
        have hxw : w ≠ x := by
          rintro rfl
          exact hx hw
        refine Nat.le_zero.1 ((degreeIn_monomial_le _ _ _).trans ?_)
        rw [Monomial.exponent_power, if_neg hxw]
      have hover : Over vs (g.leadingCoefficientIn w * r - r.leadingCoefficientIn w
          * monomial (.power w (r.degreeIn w - g.degreeIn w)) 1 * g) :=
        ((hg.coefficientIn (g.degreeIn w)).mul hr).sub
          (((hr.coefficientIn (r.degreeIn w)).mul hpower).mul hg)
      have hcancel := degreeIn_cancel_lt hr0 hg0 hle
      set next := g.leadingCoefficientIn w * r - r.leadingCoefficientIn w
        * monomial (.power w (r.degreeIn w - g.degreeIn w)) 1 * g with hnext
      have hlt : next.degreeIn w < g.degreeIn w + steps := by
        by_cases h0 : next = 0
        · rw [h0, degreeIn_zero]
          omega
        · have hlt := hcancel h0
          omega
      obtain ⟨hR, hdeg, c, s, hc, hc0, heq⟩ := ih hover hlt
      refine ⟨hR, hdeg, c * g.leadingCoefficientIn w, s + c * (r.leadingCoefficientIn w
        * monomial (.power w (r.degreeIn w - g.degreeIn w)) 1), ?_, ?_, ?_⟩
      · rw [degreeIn_mul hc0 (leadingCoefficientIn_ne_zero hg0 w), hc, zero_add]
        exact degreeIn_coefficientIn g w _
      · exact mul_ne_zero hc0 (leadingCoefficientIn_ne_zero hg0 w)
      · rw [hnext] at heq
        linear_combination heq

/-- A zero remainder: the divisor divides. -/
theorem isGcd_of_remainder_eq_zero {f h c s : Poly} (hh : PrimitiveIn w h)
    (hc : c.degreeIn w = 0) (hc0 : c ≠ 0) (heq : c * f = s * h) : IsGcd h f h := by
  have hdvd : h ∣ f := hh.dvd_of_dvd_mul hc0 hc ⟨s, by rw [heq, mul_comm]⟩
  exact fun d => ⟨fun hd => ⟨hd.trans hdvd, hd⟩, And.right⟩

/-- A remainder free of the variable: only constants divide both. -/
theorem isGcd_one_of_free_remainder {f h c s r : Poly} (hh : PrimitiveIn w h)
    (heq : c * f = s * h + r) (hr0 : r ≠ 0) (hr : r.degreeIn w = 0) : IsGcd 1 f h := by
  intro d
  refine ⟨fun hd => ⟨hd.trans (one_dvd f), hd.trans (one_dvd h)⟩, ?_⟩
  rintro ⟨hdf, hdh⟩
  have hdr : d ∣ r := by
    have hsub : r = c * f - s * h := by rw [heq]; ring
    rw [hsub]
    exact dvd_sub (hdf.mul_left c) (hdh.mul_left s)
  exact (hh d (degreeIn_eq_zero_of_dvd hr0 hr hdr) hdh).dvd

/-- Any other remainder: its primitive part takes the place of the dividend. -/
theorem isGcd_of_remainder {e f h c s r k q : Poly} (hh : PrimitiveIn w h)
    (hc : c.degreeIn w = 0) (hc0 : c ≠ 0) (heq : c * f = s * h + r)
    (hsplit : IsSplit w r k q) (he : IsGcd e h q) : IsGcd e f h := by
  intro d
  rw [he d]
  constructor
  · rintro ⟨hdh, hdq⟩
    refine ⟨(hh.of_dvd hdh).dvd_of_dvd_mul hc0 hc ?_, hdh⟩
    rw [heq, hsplit.eq_mul]
    exact dvd_add (hdh.mul_left s) (hdq.mul_left k)
  · rintro ⟨hdf, hdh⟩
    refine ⟨hdh, (hh.of_dvd hdh).dvd_of_dvd_mul hsplit.ne_zero hsplit.free ?_⟩
    have hsub : k * q = c * f - s * h := by rw [heq, hsplit.eq_mul]; ring
    rw [hsub]
    exact dvd_sub (hdf.mul_left c) (hdh.mul_left s)

end Remainder

/-! ## Primitive polynomials -/

section Primitive

variable {vs : List String} {g : Poly → Poly → Poly} {w : String}

theorem IsGcd.normalized {e a b : Poly} (h : IsGcd e a b) : IsGcd e.normalized a b :=
  h.of_associated (associated_normalized e)

/-- A primitive polynomial is, up to a constant, its own primitive part. -/
theorem associated_primitiveBy (hg : FindsGcd vs g) {h : Poly} (hover : Over (w :: vs) h)
    (hh : PrimitiveIn w h) : Associated h (primitiveBy g h w) := by
  obtain ⟨c, hsplit⟩ := isSplit_primitiveBy hg hover hh.ne_zero
  have hc : IsUnit c := hh c hsplit.free hsplit.content_dvd
  conv_lhs => rw [hsplit.eq_mul]
  exact associated_unit_mul_left _ c hc

theorem isGcd_primitiveRemainders (hg : FindsGcd vs g) {steps : ℕ} {f h : Poly}
    (hfover : Over (w :: vs) f) (hhover : Over (w :: vs) h) (hh : PrimitiveIn w h)
    (hpos : 0 < h.degreeIn w) (hsteps : h.degreeIn w ≤ steps) :
    IsGcd (primitiveRemainders g w steps f h) f h := by
  induction steps generalizing f h with
  | zero => omega
  | succ steps ih =>
    have hfuel : f.degreeIn w < h.degreeIn w + (f.degreeIn w + 1) := by omega
    obtain ⟨hover, hdeg, c, s, hc, hc0, heq⟩ := exists_pseudoRemainder hpos hhover
      List.mem_cons_self hfover hfuel
    rw [primitiveRemainders]
    set r := pseudoRemainder w h (f.degreeIn w + 1) f
    split
    · next hr =>
      rw [isZero_iff.1 hr, add_zero] at heq
      exact (isGcd_of_remainder_eq_zero hh hc hc0 heq).of_associated
        (associated_primitiveBy hg hhover hh)
    · next hr =>
      have hr0 : r ≠ 0 := fun h => hr (isZero_iff.2 h)
      split
      · next hfree => exact isGcd_one_of_free_remainder hh heq hr0 hfree
      · next hfree =>
        obtain ⟨k, hsplit⟩ := isSplit_primitiveBy hg hover hr0
        have hdeg' := hsplit.degreeIn_primitive
        have hlt := hdeg.resolve_left hr0
        exact isGcd_of_remainder hh hc hc0 heq hsplit
          (ih hhover (hsplit.over_primitive hover hr0) hsplit.primitive (by omega) (by omega))

theorem isGcd_primitiveGcd (hg : FindsGcd vs g) {a b : Poly} (ha : Over (w :: vs) a)
    (hb : Over (w :: vs) b) (hpa : PrimitiveIn w a) (hpb : PrimitiveIn w b)
    (hda : 0 < a.degreeIn w) (hdb : 0 < b.degreeIn w) : IsGcd (primitiveGcd g w a b) a b := by
  unfold primitiveGcd
  split
  · exact (isGcd_primitiveRemainders hg hb ha hpa hda le_rfl).symm
  · exact isGcd_primitiveRemainders hg ha hb hpb hdb le_rfl

end Primitive

/-! ## All variables -/

theorem isGcd_zero_left (b : Poly) : IsGcd b 0 b := fun d =>
  ⟨fun h => ⟨dvd_zero d, h⟩, And.right⟩

theorem isGcd_one_of_isUnit {a : Poly} (ha : IsUnit a) (b : Poly) : IsGcd 1 a b := fun _ =>
  ⟨fun h => ⟨h.trans (one_dvd a), h.trans (one_dvd b)⟩,
    fun h => (isUnit_of_dvd_unit h.1 ha).dvd⟩

/-- Only the content matters over a variable that one of the polynomials is free of. -/
theorem isGcd_of_free {vs : List String} {g : Poly → Poly → Poly} {w : String} {e a b : Poly}
    (hg : FindsGcd vs g) (ha0 : a ≠ 0) (ha : a.degreeIn w = 0) (hb : Over (w :: vs) b)
    (he : IsGcd e a (contentBy g b w)) : IsGcd e a b := by
  intro d
  rw [he d]
  apply and_congr_right
  intro hd
  exact dvd_contentBy_iff_dvd hg hb (degreeIn_eq_zero_of_dvd ha0 ha hd)

/-- The contents and the primitive parts have their divisors each to themselves. -/
theorem isGcd_of_split {vs : List String} {g : Poly → Poly → Poly} {w : String} {a b : Poly}
    (hg : FindsGcd vs g) (ha : Over (w :: vs) a) (hb : Over (w :: vs) b) (ha0 : a ≠ 0)
    (hb0 : b ≠ 0) (hda : 0 < a.degreeIn w) (hdb : 0 < b.degreeIn w) :
    IsGcd ((g (splitContentBy g a w).1 (splitContentBy g b w).1).mul
      (primitiveGcd g w (splitContentBy g a w).2 (splitContentBy g b w).2)).normalized a b := by
  have hsa := isSplit_splitContentBy hg ha ha0
  have hsb := isSplit_splitContentBy hg hb hb0
  have hcontents := hg _ _ (hsa.over_content ha ha0) (hsb.over_content hb hb0)
  have hprimitive := isGcd_primitiveGcd hg (hsa.over_primitive ha ha0)
    (hsb.over_primitive hb hb0) hsa.primitive hsb.primitive
    (by rwa [hsa.degreeIn_primitive]) (by rwa [hsb.degreeIn_primitive])
  have hmul := hcontents.mul hprimitive hsa.free hsa.ne_zero hsb.free hsb.ne_zero
    hsa.primitive hsb.primitive
  rw [← hsa.eq_mul, ← hsb.eq_mul] at hmul
  exact hmul.normalized

theorem findsGcd_gcdOver (vs : List String) : FindsGcd vs (gcdOver vs) := by
  induction vs with
  | nil =>
    intro a b ha hb
    unfold gcdOver
    split
    · next h =>
      rw [isZero_iff.1 h]
      exact (isGcd_zero_left b).normalized
    · next h =>
      split
      · next h' =>
        rw [isZero_iff.1 h']
        exact (isGcd_zero_left a).symm.normalized
      · refine isGcd_one_of_isUnit (isUnit_iff.2 ⟨?_, fun h0 => h (isZero_iff.2 h0)⟩) b
        exact isConstant_iff_degreeIn.2 fun v => ha v (by simp)
  | cons w vs ih =>
    intro a b ha hb
    unfold gcdOver
    split
    · next h =>
      rw [isZero_iff.1 h]
      exact (isGcd_zero_left b).normalized
    · next h =>
      have ha0 : a ≠ 0 := fun h0 => h (isZero_iff.2 h0)
      split
      · next h' =>
        rw [isZero_iff.1 h']
        exact (isGcd_zero_left a).symm.normalized
      · next h' =>
        have hb0 : b ≠ 0 := fun h0 => h' (isZero_iff.2 h0)
        split
        · next hconst =>
          rcases Bool.or_eq_true _ _ ▸ hconst with hc | hc
          · exact isGcd_one_of_isUnit (isUnit_iff.2 ⟨hc, ha0⟩) b
          · exact (isGcd_one_of_isUnit (isUnit_iff.2 ⟨hc, hb0⟩) a).symm
        · split
          · next hfa =>
            have ha' := ha.cons_of_degreeIn_eq_zero hfa
            split
            · next hfb => exact ih a b ha' (hb.cons_of_degreeIn_eq_zero hfb)
            · exact isGcd_of_free ih ha0 hfa hb (ih _ _ ha' (over_contentBy ih hb hb0))
          · next hfa =>
            split
            · next hfb =>
              have hb' := hb.cons_of_degreeIn_eq_zero hfb
              exact (isGcd_of_free ih hb0 hfb ha (ih _ _ (over_contentBy ih ha ha0) hb').symm).symm
            · next hfb => exact isGcd_of_split ih ha hb ha0 hb0 (by omega) (by omega)

/-- The divisors of the computed greatest common divisor are the common divisors. -/
theorem isGcd_gcd (a b : Poly) : IsGcd (gcd a b) a b := by
  have hover (p : Poly) (hp : ∀ x, p.degreeIn x ≤ (a.degrees.lcm b.degrees).exponent x) :
      Over (a.degrees.lcm b.degrees).vars p := by
    intro x hx
    rw [Monomial.mem_vars_iff] at hx
    have hle := hp x
    omega
  refine findsGcd_gcdOver _ a b (hover a fun x => ?_) (hover b fun x => ?_)
  · rw [Monomial.exponent_lcm, exponent_degrees]
    exact le_max_left _ _
  · rw [Monomial.exponent_lcm, exponent_degrees, exponent_degrees]
    exact le_max_right _ _

/-- A polynomial with a constant content over a variable is primitive over it. -/
theorem primitiveIn_of_content {p : Poly} {v : String} (hp : p ≠ 0)
    (hcontent : (p.content v).isConstant = true) : PrimitiveIn v p := by
  intro d hfree hd
  have hover : Over (v :: p.vars) p := fun x hx =>
    over_vars p x fun h => hx (List.mem_cons_of_mem v h)
  have hg : FindsGcd p.vars gcd := fun a b _ _ => isGcd_gcd a b
  have hdvd : d ∣ p.content v := (dvd_contentBy_iff_dvd hg hover hfree).2 hd
  exact isUnit_of_dvd_unit hdvd (isUnit_iff.2 ⟨hcontent, contentBy_ne_zero hg hover hp⟩)

end Poly
end Meadow
