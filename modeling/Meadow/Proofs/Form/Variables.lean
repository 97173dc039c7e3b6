import Mathlib
import Meadow.Proofs.CaseSplit
import Meadow.Proofs.Poly.Radical

set_option autoImplicit false

/-!
# Variables of results

A form is over a list of variables if all its polynomials are.  Quotients and branches are
built of divisors, products and sums of what is given, so that nothing but the given variables
occurs in them, and operations and evaluation are built of these two.  Evaluation drops the
variables that are assumed to be zero, down to the conditions (`Form.Over.eval`).  Factoring
goes through a polynomial in a variable with a name of its own, but what it returns divides
what was factored, whatever the names.
-/

namespace Meadow

/-! ## Polynomials -/

namespace Poly.Over

variable {vs ws : List String} {p : Poly}

theorem mono (hp : Over vs p) (h : ∀ x ∈ vs, x ∈ ws) : Over ws p := fun x hx =>
  hp x fun hmem => hx (h x hmem)

theorem of_isConstant (hp : p.isConstant = true) : Over vs p := fun x _ =>
  isConstant_iff_degreeIn.1 hp x

theorem scale (hp : Over vs p) (c : ℚ) : Over vs (p.scale c) := by
  rw [scale_eq_mul]
  exact (of_isConstant (isConstant_iff.2 ⟨c, rfl⟩)).mul hp

theorem of_mem_factors (hp : Over vs p) {f : Poly} (hf : f ∈ p.factors) : Over vs f := by
  by_cases hconst : p.isConstant = true
  · rw [factors, if_pos hconst, List.mem_singleton] at hf
    rwa [hf]
  · rw [Bool.not_eq_true] at hconst
    exact hp.of_dvd (ne_zero_of_not_isConstant hconst) (dvd_of_mem_factors hf)

theorem radical (hp : Over vs p) : Over vs p.radical := by
  by_cases hconst : p.isConstant = true
  · rwa [Poly.radical, if_pos hconst]
  · rw [Bool.not_eq_true] at hconst
    exact hp.of_dvd (ne_zero_of_not_isConstant hconst) (radical_dvd hconst)

/-- A polynomial is over those variables that have a degree in it. -/
theorem iff_vars : Over vs p ↔ ∀ x ∈ p.vars, x ∈ vs := by
  constructor
  · intro hp x hx
    by_contra hmem
    exact absurd (hp x hmem) (mem_vars_iff.1 hx).ne'
  · exact fun h => (over_vars p).mono h

/-- Evaluation leaves the variables that are not assumed to be zero. -/
theorem evalPoly {a : Assumptions} (hp : Over vs p)
    (h : ∀ x ∈ vs, x ∉ a.zeroVars → x ∈ ws) : Over ws (a.evalPoly p) := by
  intro x hx
  by_cases hzero : x ∈ a.zeroVars
  · exact Assumptions.degreeIn_evalPoly hzero p
  · have hfree : x ∉ vs := fun hmem => hx (h x hmem hzero)
    unfold Assumptions.evalPoly
    split
    · exact hp x hfree
    · refine Assumptions.degreeIn_evalFactors _ (degreeIn_one x) fun f hf => ?_
      have hle := degreeIn_substituteZeros_le f a.zeroVars x
      rw [hp.of_mem_factors hf x hfree] at hle
      exact Nat.le_zero.1 hle

end Poly.Over

namespace Form

/-! ## The invariant -/

/-- Only the listed variables occur. -/
def Over (vs : List String) : Form → Prop
  | poly p => Poly.Over vs p
  | frac n d => Poly.Over vs n ∧ Poly.Over vs d
  | cond c t e => Poly.Over vs c ∧ t.Over vs ∧ e.Over vs

variable {vs ws : List String}

theorem mem_vars_poly {p : Poly} {x : String} : x ∈ (poly p).vars ↔ x ∈ p.vars := by
  rw [vars, FinSet.mem_toList_iff, varSet, FinSet.contains_ofList]

theorem mem_vars_frac {n d : Poly} {x : String} :
    x ∈ (frac n d).vars ↔ x ∈ n.vars ∨ x ∈ d.vars := by
  rw [vars, FinSet.mem_toList_iff, varSet, FinSet.contains_union, Bool.or_eq_true,
    FinSet.contains_ofList, FinSet.contains_ofList]

theorem mem_vars_cond {c : Poly} {t e : Form} {x : String} :
    x ∈ (cond c t e).vars ↔ x ∈ c.vars ∨ x ∈ t.vars ∨ x ∈ e.vars := by
  rw [vars, FinSet.mem_toList_iff, varSet, FinSet.contains_union, FinSet.contains_union,
    Bool.or_eq_true, Bool.or_eq_true, FinSet.contains_ofList, ← FinSet.mem_toList_iff,
    ← FinSet.mem_toList_iff, vars, vars]

/-- The variables of a form are the least list that it is over. -/
theorem over_iff {f : Form} : f.Over vs ↔ ∀ x ∈ f.vars, x ∈ vs := by
  induction f with
  | poly p => simp only [Over, mem_vars_poly, Poly.Over.iff_vars]
  | frac n d => simp only [Over, mem_vars_frac, Poly.Over.iff_vars, or_imp, forall_and]
  | cond c t e iht ihe =>
    simp only [Over, mem_vars_cond, Poly.Over.iff_vars, iht, ihe, or_imp, forall_and]

theorem over_vars (f : Form) : f.Over f.vars := over_iff.2 fun _ hx => hx

theorem Over.mono {f : Form} (hf : f.Over vs) (h : ∀ x ∈ vs, x ∈ ws) : f.Over ws :=
  over_iff.2 fun x hx => h x (over_iff.1 hf x hx)

theorem over_zero : zero.Over vs := Poly.Over.zero

/-! ## Building -/

theorem over_quotient {n d : Poly} (hn : Poly.Over vs n) (hd : Poly.Over vs d) :
    (quotient n d).Over vs := by
  unfold quotient
  split
  · exact over_zero
  · split
    · next c _ => exact hn.scale c⁻¹
    · exact ⟨hn, hd⟩

theorem Over.underNonzero {c : Poly} {t : Form} (ht : t.Over vs) :
    (underNonzero c t).Over vs := by
  cases t with
  | poly p => exact ht
  | frac n d => exact ht
  | cond c' t e =>
    rw [Form.underNonzero]
    split
    · exact ht.2.1
    · exact ht

theorem Over.underZero {c : Poly} {e : Form} (he : e.Over vs) : (underZero c e).Over vs := by
  cases e with
  | poly p =>
    rw [Form.underZero]
    split
    · exact over_zero
    · exact he
  | frac n d =>
    rw [Form.underZero]
    split
    · exact over_zero
    · exact he
  | cond c' t e =>
    rw [Form.underZero]
    split
    · exact he.2.2
    · exact he

theorem Over.branch {c : Poly} {t e : Form} (hc : Poly.Over vs c) (ht : t.Over vs)
    (he : e.Over vs) : (branch c t e).Over vs := by
  unfold Form.branch
  dsimp only
  split
  · exact ht.underNonzero
  · split
    · exact he.underZero
    · split
      · exact ht.underNonzero
      · exact ⟨hc.radical, ht.underNonzero, he.underZero⟩

/-! ## Arithmetic -/

theorem Over.neg {f : Form} (hf : f.Over vs) : f.neg.Over vs := by
  induction f with
  | poly p => exact Poly.Over.neg hf
  | frac n d => exact over_quotient hf.1.neg hf.2
  | cond c t e iht ihe => exact Over.branch hf.1 (iht hf.2.1) (ihe hf.2.2)

theorem Over.addPoly {p : Poly} {f : Form} (hp : Poly.Over vs p) (hf : f.Over vs) :
    (addPoly p f).Over vs := by
  induction f with
  | poly q => exact hp.add hf
  | frac n d => exact Over.branch hf.2 (over_quotient ((hp.mul hf.2).add hf.1) hf.2) hp
  | cond c t e iht ihe => exact Over.branch hf.1 (iht hf.2.1) (ihe hf.2.2)

theorem Over.addFrac {n d : Poly} {f : Form} (hfrac : (frac n d).Over vs) (hf : f.Over vs) :
    (addFrac n d f).Over vs := by
  have hn : Poly.Over vs n := hfrac.1
  have hd : Poly.Over vs d := hfrac.2
  induction f with
  | poly q =>
    rw [Form.addFrac]
    split
    · exact hfrac
    · exact Over.addPoly hf hfrac
  | frac n' d' =>
    have hn' : Poly.Over vs n' := hf.1
    have hd' : Poly.Over vs d' := hf.2
    rw [Form.addFrac]
    split
    · exact over_quotient (hn.add hn') hd
    · refine Over.branch hd (Over.branch hd' (over_quotient ?_ (hd.mul hd')) hfrac) hf
      exact (hn.mul hd').add (hd.mul hn')
  | cond c t e iht ihe =>
    obtain ⟨hc, ht, he⟩ := hf
    rw [Form.addFrac]
    split
    · exact Over.branch hc (iht ht) he
    · exact Over.branch hc (Over.branch hd (iht ht) ht) (Over.branch hd (ihe he) he)

theorem Over.add {a b : Form} (ha : a.Over vs) (hb : b.Over vs) : (a.add b).Over vs := by
  induction a generalizing b with
  | poly p =>
    rw [Form.add]
    split
    · exact hb
    · exact Over.addPoly ha hb
  | frac n d => exact Over.addFrac ha hb
  | cond c t e iht ihe =>
    cases b with
    | poly q =>
      rw [Form.add]
      split
      · exact ha
      · exact Over.addPoly hb ha
    | frac n d => exact Over.addFrac hb ha
    | cond c' t' e' =>
      rw [Form.add]
      split
      · exact Over.branch ha.1 (iht ha.2.1 hb.2.1) (ihe ha.2.2 hb.2.2)
      · exact Over.branch ha.1 (iht ha.2.1 hb) (ihe ha.2.2 hb)

theorem Over.sub {a b : Form} (ha : a.Over vs) (hb : b.Over vs) : (a.sub b).Over vs := by
  rw [Form.sub]
  split
  · exact hb.neg
  · split
    · exact ha
    · exact ha.add hb.neg

theorem Over.mulPoly {p : Poly} {f : Form} (hp : Poly.Over vs p) (hf : f.Over vs) :
    (mulPoly p f).Over vs := by
  induction f with
  | poly q => exact hp.mul hf
  | frac n d => exact over_quotient (hp.mul hf.1) hf.2
  | cond c t e iht ihe => exact Over.branch hf.1 (iht hf.2.1) (ihe hf.2.2)

theorem Over.mulFrac {n d : Poly} {f : Form} (hfrac : (frac n d).Over vs) (hf : f.Over vs) :
    (mulFrac n d f).Over vs := by
  have hn : Poly.Over vs n := hfrac.1
  have hd : Poly.Over vs d := hfrac.2
  induction f with
  | poly q =>
    rw [Form.mulFrac]
    split
    · exact over_zero
    · split
      · exact hfrac
      · exact over_quotient (Poly.Over.mul hf hn) hd
  | frac n' d' => exact over_quotient (hn.mul hf.1) (hd.mul hf.2)
  | cond c t e iht ihe =>
    refine Over.branch hf.1 (iht hf.2.1) ?_
    split
    · exact over_zero
    · exact ihe hf.2.2

theorem Over.mul {a b : Form} (ha : a.Over vs) (hb : b.Over vs) : (a.mul b).Over vs := by
  induction a generalizing b with
  | poly p =>
    rw [Form.mul]
    split
    · exact over_zero
    · split
      · exact hb
      · exact Over.mulPoly ha hb
  | frac n d => exact Over.mulFrac ha hb
  | cond c t e iht ihe =>
    cases b with
    | poly q =>
      rw [Form.mul]
      split
      · exact over_zero
      · split
        · exact ha
        · exact Over.mulPoly hb ha
    | frac n d => exact Over.mulFrac hb ha
    | cond c' t' e' =>
      rw [Form.mul]
      split
      · exact Over.branch ha.1 (iht ha.2.1 hb.2.1) (ihe ha.2.2 hb.2.2)
      · exact Over.branch ha.1 (iht ha.2.1 hb) (ihe ha.2.2 hb)

theorem Over.divPoly {p : Poly} {f : Form} (hp : Poly.Over vs p) (hf : f.Over vs) :
    (divPoly p f).Over vs := by
  induction f with
  | poly q => exact over_quotient hp hf
  | frac n d => exact over_quotient (hp.mul hf.2) hf.1
  | cond c t e iht ihe => exact Over.branch hf.1 (iht hf.2.1) (ihe hf.2.2)

theorem Over.divFrac {n d : Poly} {f : Form} (hfrac : (frac n d).Over vs) (hf : f.Over vs) :
    (divFrac n d f).Over vs := by
  have hn : Poly.Over vs n := hfrac.1
  have hd : Poly.Over vs d := hfrac.2
  induction f with
  | poly q =>
    rw [Form.divFrac]
    split
    · exact over_zero
    · split
      · exact hfrac
      · exact over_quotient hn (hd.mul hf)
  | frac n' d' => exact over_quotient (hn.mul hf.2) (hd.mul hf.1)
  | cond c t e iht ihe =>
    refine Over.branch hf.1 (iht hf.2.1) ?_
    split
    · exact over_zero
    · exact ihe hf.2.2

theorem Over.div {a b : Form} (ha : a.Over vs) (hb : b.Over vs) : (a.div b).Over vs := by
  induction a generalizing b with
  | poly p => exact Over.divPoly ha hb
  | frac n d => exact Over.divFrac ha hb
  | cond c t e iht ihe =>
    have hbranch := Over.branch ha.1 (iht ha.2.1 hb) (ihe ha.2.2 hb)
    unfold Form.div
    split
    · exact over_zero
    · split
      · exact ha
      · split
        · split
          · exact Over.branch ha.1 (iht ha.2.1 hb.2.1) (ihe ha.2.2 hb.2.2)
          · exact hbranch
        · exact hbranch

/-! ## Evaluation -/

/-- Evaluation leaves the variables that are not assumed to be zero. -/
theorem Over.eval {f : Form} {a : Assumptions} (hf : f.Over vs)
    (h : ∀ x ∈ vs, x ∉ a.zeroVars → x ∈ ws) : (f.eval a).Over ws := by
  induction f generalizing a with
  | poly p => exact Poly.Over.evalPoly hf h
  | frac n d =>
    exact Over.mul (a := poly _) (b := poly _) (hf.1.evalPoly h) (hf.2.evalPoly h)
  | cond c t e iht ihe =>
    obtain ⟨hc, ht, he⟩ := hf
    rw [Form.eval]
    split
    · exact ihe he h
    · dsimp only
      split
      · exact iht ht h
      · split
        · exact Over.branch (hc.evalPoly h) (iht ht h) (ihe he h)
        · cases hfirst : List.findSome? _ _ with
          | none => exact over_zero
          | some g =>
            obtain ⟨r, -, hr⟩ := List.exists_of_findSome?_eq_some hfirst
            split at hr
            · cases hr
            · cases hr
              -- one more polynomial assumed to be zero leaves no more variables
              refine ihe he fun x hx hzero => h x hx fun hmem => hzero ?_
              rw [Assumptions.mem_zeroVars_iff] at hmem ⊢
              exact Assumptions.contains_zeros_withZero.2 (Or.inr hmem)

theorem mem_vars_of_mem_vars_eval {f : Form} {a : Assumptions} {x : String}
    (hx : x ∈ (f.eval a).vars) : x ∈ f.vars ∧ x ∉ a.zeroVars := by
  have hover : (f.eval a).Over (f.vars.filter fun w => w ∉ a.zeroVars) := by
    refine f.over_vars.eval fun w hw hzero => ?_
    exact List.mem_filter.2 ⟨hw, decide_eq_true hzero⟩
  obtain ⟨hmem, hzero⟩ := List.mem_filter.1 (over_iff.1 hover x hx)
  exact ⟨hmem, of_decide_eq_true hzero⟩

/-! ## Counterexamples -/

end Form
end Meadow
