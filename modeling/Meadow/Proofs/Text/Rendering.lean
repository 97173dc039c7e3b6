import Mathlib
import Meadow.Form.Basic
import Meadow.Proofs.Form.WellFormed
import Meadow.Proofs.Text.Spelling

set_option autoImplicit false

/-!
# The texts of forms denote their values

Every text that is written for a polynomial, a factorization or a form is read back as its
value, whatever the printers leave out: parentheses, a coefficient of one, a first sign.
For this a factor of a single term has to be a variable and a denominator may not be
constant, as is the case for factorizations and well-formed forms.
-/

namespace Meadow

/-- Is the string read as a name? -/
def IsName (x : String) : Prop := ∃ n : Name, n.var = x

variable {K : Type*} [Field K] [CharZero K] {v : String → K}

theorem IsName.shows {x : String} (h : IsName x) : Shows v 4 x (v x) := by
  obtain ⟨n, rfl⟩ := h
  exact shows_name n

/-! ## Monomials -/

namespace Monomial

theorem shows_renderPower {w : String × ℕ} (hw : IsName w.1) :
    Shows v 1 (renderPower w) (v w.1 ^ w.2) := by
  unfold renderPower
  split
  · next h =>
    rw [h, pow_one]
    exact hw.shows.of_le
  · exact (hw.shows.power w.2).of_le

theorem shows_render {m : Monomial} (hm : m.isOne = false)
    (hnames : ∀ w ∈ m.powers, IsName w.1) : Shows v 1 m.render (m.value v) := by
  rw [render, value]
  cases hpowers : m.powers with
  | nil =>
    have hone : m.isOne = true := List.isEmpty_iff.2 hpowers
    rw [hm] at hone
    cases hone
  | cons w ws =>
    rw [hpowers] at hnames
    rw [List.map_cons, List.map_cons, List.prod_cons]
    exact (shows_renderPower (hnames w List.mem_cons_self)).intercalate fun u hu =>
      shows_renderPower (hnames u (List.mem_cons_of_mem w hu))

end Monomial

/-! ## Polynomials -/

namespace Poly

/-- The variables are names. -/
def Named (p : Poly) : Prop := ∀ x ∈ p.vars, IsName x

theorem Named.of_dvd {p q : Poly} (h : q.Named) (hq : q ≠ 0) (hpq : p ∣ q) : p.Named := by
  intro x hx
  rw [mem_vars_iff] at hx
  exact h x (mem_vars_iff.2 (hx.trans_le (degreeIn_le_of_dvd hq hpq x)))

/-- The names in a term. -/
theorem Named.of_mem_powers {p : Poly} (h : p.Named) {t : Monomial × ℚ} (ht : t ∈ p.terms)
    {w : String × ℕ} (hw : w ∈ t.1.powers) : IsName w.1 :=
  h w.1 (mem_vars_iff.2 (degreeIn_pos_of_mem_powers ht hw))

section Terms

variable {t : Monomial × ℚ} (ht : ∀ w ∈ t.1.powers, IsName w.1)
include ht

theorem shows_renderMagnitude :
    Shows v 1 (renderMagnitude t) ((t.2.abs : ℚ) * t.1.value v) := by
  unfold renderMagnitude
  dsimp only
  split
  · next h =>
    have hone : Monomial.one.value v = 1 := rfl
    rw [isOne_monomial_iff.1 h, hone, mul_one]
    exact shows_rat t.2.abs
  · next h =>
    have hmonomial := Monomial.shows_render (v := v) (Bool.not_eq_true _ ▸ h) ht
    split
    · next hunit =>
      rw [hunit, Rat.cast_one, one_mul]
      exact hmonomial
    · exact (shows_rat t.2.abs).mul (o := "*") (Spells.single (.operator .times)) hmonomial

/-- The first term has its sign directly in front. -/
theorem shows_first :
    Shows v 1 ((if t.2 < 0 then "-" else "") ++ renderMagnitude t) (t.2 * t.1.value v) := by
  have hmagnitude := shows_renderMagnitude (v := v) ht
  split
  · next h =>
    rw [Rat.abs_of_nonpos h.le, Rat.cast_neg, neg_mul] at hmagnitude
    have hneg := hmagnitude.neg
    rwa [neg_neg] at hneg
  · next h =>
    rw [Rat.abs_of_nonneg (not_lt.1 h)] at hmagnitude
    rwa [String.empty_append]

theorem shows_renderNext {s : String} {x : K} (hs : Shows v 0 s x) :
    Shows v 0 (s ++ renderNext t) (x + t.2 * t.1.value v) := by
  have hmagnitude := shows_renderMagnitude (v := v) ht
  unfold renderNext
  rw [← String.append_assoc]
  split
  · next h =>
    rw [Rat.abs_of_nonpos h.le, Rat.cast_neg, neg_mul] at hmagnitude
    have hsub := hs.sub (o := " - ") (Spells.spaced_operator .minus) hmagnitude
    rwa [sub_neg_eq_add] at hsub
  · next h =>
    rw [Rat.abs_of_nonneg (not_lt.1 h)] at hmagnitude
    exact hs.add (o := " + ") (Spells.spaced_operator .plus) hmagnitude

end Terms

theorem shows_join {s : String} {x : K} (hs : Shows v 0 s x) {ts : List (Monomial × ℚ)}
    (hts : ∀ t ∈ ts, ∀ w ∈ t.1.powers, IsName w.1) :
    Shows v 0 (s ++ String.join (ts.map renderNext))
      (x + (ts.map fun t => (t.2 : K) * t.1.value v).sum) := by
  induction ts generalizing s x with
  | nil =>
    rw [List.map_nil, List.map_nil, String.join_nil, String.append_empty, List.sum_nil, add_zero]
    exact hs
  | cons t ts ih =>
    have hfirst := shows_renderNext (hts t List.mem_cons_self) hs
    rw [List.map_cons, List.map_cons, String.join_cons, List.sum_cons, ← String.append_assoc,
      ← add_assoc]
    exact ih hfirst fun u hu => hts u (List.mem_cons_of_mem t hu)

theorem shows_zero : Shows v 1 "0" 0 := by
  have hzero := shows_nat (v := v) 0
  rw [Nat.cast_zero] at hzero
  exact hzero.of_le

/-- The text of a polynomial denotes its value. -/
theorem shows_render {p : Poly} (hp : p.Named) : Shows v 0 p.render (p.value v) := by
  have hperm := List.mergeSort_perm p.terms writtenBefore
  have hnames : ∀ t ∈ p.terms.mergeSort writtenBefore, ∀ w ∈ t.1.powers, IsName w.1 :=
    fun t ht _ hw => hp.of_mem_powers (hperm.mem_iff.1 ht) hw
  rw [value, ← (hperm.map fun t => (t.2 : K) * t.1.value v).sum_eq]
  unfold render
  generalize p.terms.mergeSort writtenBefore = terms at hnames ⊢
  cases terms with
  | nil => exact shows_zero.of_le
  | cons t ts =>
    have hfirst : Shows v 0 _ _ := (shows_first (hnames t List.mem_cons_self)).of_le
    exact shows_join hfirst fun u hu => hnames u (List.mem_cons_of_mem t hu)

/-- The text of at most one term is a product. -/
theorem shows_render_of_size_le {p : Poly} (hp : p.Named) (hsize : p.size ≤ 1) :
    Shows v 1 p.render (p.value v) := by
  rw [value]
  unfold render
  cases hterms : p.terms with
  | nil =>
    rw [List.mergeSort_nil]
    exact shows_zero
  | cons t ts =>
    have hts : ts = [] := by
      rw [size, hterms, List.length_cons] at hsize
      exact List.length_eq_zero_iff.1 (by omega)
    have ht : t ∈ p.terms := by
      rw [hterms]
      exact List.mem_cons_self
    have hfirst := shows_first (v := v) fun w hw => hp.of_mem_powers ht hw
    rw [hts, List.mergeSort_singleton, List.map_singleton, List.sum_singleton]
    dsimp only
    rwa [List.map_nil, String.join_nil, String.append_empty]

theorem size_constant_le (c : ℚ) : (constant c).size ≤ 1 := by
  rw [size, terms, constant, monomial, FinSupp.single]
  split
  · exact Nat.zero_le 1
  · exact le_rfl

@[simp] theorem render_var (x : String) : (var x).render = x := by
  have hmagnitude : renderMagnitude (.power x 1, 1) = x := by
    have habs : (1 : ℚ).abs = 1 := by decide
    have hone : (Monomial.power x 1).isOne = false := rfl
    have hrender : (Monomial.power x 1).render = x := String.intercalate_singleton
    simp [renderMagnitude, hone, habs, hrender]
  have hterms : (var x).terms = [(.power x 1, 1)] := rfl
  have hsign : ¬ (1 : ℚ) < 0 := by decide
  rw [render, hterms, List.mergeSort_singleton]
  dsimp only
  rw [if_neg hsign, hmagnitude, List.map_nil, String.join_nil, String.empty_append,
    String.append_empty]

/-! ## Factors of one term -/

/-- A term that is no constant is divisible by a variable. -/
theorem exists_var_dvd {p : Poly} (hp : p.isConstant = false) (hsize : p.size ≤ 1) :
    ∃ x, var x ∣ p := by
  have hterms : ∃ t, p.terms = [t] := by
    refine List.length_eq_one_iff.1 (le_antisymm hsize (Nat.one_le_iff_ne_zero.2 fun h0 => ?_))
    rw [isConstant, List.length_eq_zero_iff.1 h0] at hp
    cases hp
  obtain ⟨⟨m, c⟩, hterms⟩ := hterms
  have hpm : p = monomial m c := by
    rw [← sum_terms p, hterms, List.map_singleton, List.sum_singleton]
  have hone : m ≠ .one := by
    rintro rfl
    rw [isConstant, hterms] at hp
    cases hp
  obtain ⟨x, hx⟩ : ∃ x, m.exponent x ≠ 0 := by
    by_contra h
    push Not at h
    exact hone (Monomial.ext_exponent h)
  refine ⟨x, (dvd_pow_self (var x) hx).trans (Dvd.intro_left (monomial (m.without x) c) ?_)⟩
  rw [← monomial_power, monomial_mul_monomial, mul_one, without_mul_power, hpm]

/-- A factor of a single term is a variable: any other monomial has been taken out. -/
theorem eq_var_of_mem_factorize {p : Poly} (hp : p.isConstant = false) {f : Poly × ℕ}
    (hf : f ∈ p.factorize.factors) (hsize : f.1.size ≤ 1) : ∃ x, f.1 = var x := by
  have hp0 := ne_zero_of_not_isConstant hp
  rcases mem_foundFactors (mem_foundFactors_of_mem_factorize hp hf) with
    h | ⟨part, hpart, hmem, hconstant⟩
  · exact h
  · obtain ⟨x, hx⟩ := exists_var_dvd hconstant hsize
    have hfactor : f.1 ∣ part.1 := (List.dvd_prod hmem).trans
      (associated_irreducibleFactors (ne_zero_of_mem_parts hp0 hpart)).dvd
    have hrest : part.1 ∣ p.monomialFree :=
      dvd_of_mem_squarefreePartsOver (over_vars _) (monomialFree_ne_zero hp0) hpart
    exact absurd (hx.trans (hfactor.trans hrest))
      (not_var_dvd_of_eq_monomialContent_mul hp0 (eq_monomialContent_mul p) x)

end Poly

/-! ## Factorizations -/

namespace Factorization

theorem value_expand (f : Factorization) :
    f.expand.value v = f.constant * (f.factors.map fun g => g.1.value v ^ g.2).prod := by
  rw [expand, Poly.value_scale, product_eq_prod, ← Poly.valueHom_apply, map_list_prod,
    List.map_map]
  congr 2
  refine List.map_congr_left fun g _ => ?_
  rw [Function.comp_apply, map_pow, Poly.valueHom_apply]

/-- The factors are written so that they can be told apart: one without parentheses is a
variable. -/
structure Legible (f : Factorization) : Prop where
  named : ∀ g ∈ f.factors, g.1.Named
  pos : ∀ g ∈ f.factors, 0 < g.2
  eq_var : ∀ g ∈ f.factors, g.1.size ≤ 1 → ∃ x, g.1 = .var x

theorem Legible.shows_renderFactor {f : Factorization} (hf : f.Legible) {g : Poly × ℕ}
    (hg : g ∈ f.factors) : Shows v 1 (renderFactor g) (g.1.value v ^ g.2) := by
  have hbase : Shows v 4 (if g.1.size > 1 then "(" ++ g.1.render ++ ")" else g.1.render)
      (g.1.value v) := by
    split
    · exact (Poly.shows_render (hf.named g hg)).parens
    · next h =>
      obtain ⟨x, hx⟩ := hf.eq_var g hg (Nat.le_of_not_gt h)
      have hname : IsName x := by
        refine hf.named g hg x (Poly.mem_vars_iff.2 ?_)
        rw [hx, Poly.degreeIn_var, if_pos rfl]
        exact Nat.one_pos
      rw [hx, Poly.render_var, Poly.value_var]
      exact hname.shows
  unfold renderFactor
  dsimp only
  split
  · exact (hbase.power g.2).of_le
  · next h =>
    have hone : g.2 = 1 := by
      have hpos := hf.pos g hg
      omega
    rw [hone, pow_one]
    exact hbase.of_le

theorem shows_renderFactors (c : ℚ) {fs : List (Poly × ℕ)} (hne : fs ≠ [])
    (hfs : ∀ f ∈ fs, Shows v 1 (renderFactor f) (f.1.value v ^ f.2)) :
    Shows v 1 (render.renderFactors c fs) (c * (fs.map fun f => f.1.value v ^ f.2).prod) := by
  have hproduct : Shows v 1 ("*".intercalate (fs.map renderFactor))
      (fs.map fun f => f.1.value v ^ f.2).prod := by
    cases fs with
    | nil => exact absurd rfl hne
    | cons f fs =>
      rw [List.map_cons, List.map_cons, List.prod_cons]
      exact (hfs f List.mem_cons_self).intercalate fun g hg => hfs g (List.mem_cons_of_mem f hg)
  unfold render.renderFactors
  dsimp only
  split
  · next h =>
    rw [h, Rat.cast_neg, Rat.cast_one, neg_one_mul]
    exact hproduct.neg
  · split
    · next h =>
      rw [h, Rat.cast_one, one_mul]
      exact hproduct
    · exact (shows_rat c).intercalate hfs

/-- The text of a legible factorization denotes the value of what it multiplies to. -/
theorem Legible.shows_render {f : Factorization} (hf : f.Legible) :
    Shows v 0 f.render (f.expand.value v) := by
  have hfactors := fun g hg => hf.shows_renderFactor (v := v) (g := g) hg
  rw [value_expand]
  unfold render
  split
  · next h =>
    rw [h, List.map_nil, List.prod_nil, mul_one]
    exact (shows_rat f.constant).of_le
  · next p h =>
    rw [h] at hfactors ⊢
    split
    · next hone =>
      rw [hone, List.map_singleton, List.prod_singleton, pow_one, Rat.cast_one, one_mul]
      exact Poly.shows_render (hf.named (p, 1) (h ▸ List.mem_cons_self))
    · exact (shows_renderFactors f.constant (List.cons_ne_nil _ _) hfactors).of_le
  · next hne _ => exact (shows_renderFactors f.constant hne hfactors).of_le

end Factorization

namespace Poly

theorem legible_factorize {p : Poly} (hp : p.Named) : p.factorize.Legible := by
  by_cases hconstant : p.isConstant = false
  · have hp0 := ne_zero_of_not_isConstant hconstant
    exact ⟨fun f hf => hp.of_dvd hp0 (dvd_of_mem_factorize hconstant hf),
      fun f hf => pos_of_mem_factorize hf, fun f hf => eq_var_of_mem_factorize hconstant hf⟩
  · have hnone : p.factorize.factors = [] := by
      obtain ⟨c, rfl⟩ := isConstant_iff.1 (Bool.not_eq_false _ ▸ hconstant)
      rw [factorize, constantValue?_eq_some_iff.2 rfl]
    constructor <;> simp [hnone]

theorem shows_render_factorize {p : Poly} (hp : p.Named) :
    Shows v 0 p.factorize.render (p.value v) := by
  have hrender := (legible_factorize hp).shows_render (v := v)
  rwa [expand_factorize_eq] at hrender

/-- Polynomials with the same values are equal. -/
theorem eq_of_value_eq {p q : Poly} (h : ∀ v : String → ℚ, p.value v = q.value v) : p = q := by
  refine toMv_injective (MvPolynomial.funext fun v => ?_)
  have hv := h v
  rw [← valueHom_apply, ← valueHom_apply] at hv
  exact hv

/-! ## Forms -/

theorem shows_renderFactored_of_not_isConstant {p : Poly} (hp : p.Named)
    (hconstant : p.isConstant = false) : Shows v 4 p.renderFactored (p.value v) := by
  rw [renderFactored, hconstant, if_neg Bool.false_ne_true]
  exact (shows_render_factorize hp).parens

theorem shows_renderFactored {p : Poly} (hp : p.Named) :
    Shows v 1 p.renderFactored (p.value v) := by
  by_cases hconstant : p.isConstant = true
  · obtain ⟨c, rfl⟩ := isConstant_iff.1 hconstant
    rw [renderFactored, if_pos hconstant]
    exact shows_render_of_size_le hp (size_constant_le c)
  · exact (shows_renderFactored_of_not_isConstant hp (Bool.not_eq_true _ ▸ hconstant)).of_le

end Poly

namespace Form

/-- The variables are names. -/
def Named : Form → Prop
  | poly p => p.Named
  | frac n d => n.Named ∧ d.Named
  | cond c t e => c.Named ∧ t.Named ∧ e.Named

/-- The text of a quotient is one quotient in parentheses. -/
theorem render_frac (n d : Poly) :
    (frac n d).render = "(" ++ (n.renderFactored ++ " / " ++ d.renderFactored) ++ ")" := by
  -- the equations of `render` are slow to derive, so the definition is unfolded by `rfl`
  have hrender : (frac n d).render
      = "(" ++ n.renderFactored ++ " / " ++ d.renderFactored ++ ")" := rfl
  simp only [hrender, String.append_assoc]

/-- The text of a conditional is a sum of two products in parentheses. -/
theorem render_cond (c : Poly) (t e : Form) :
    let ratio := c.renderFactored ++ "/" ++ c.renderFactored
    (cond c t e).render = "(" ++ ("(" ++ ratio ++ ")" ++ " * " ++ t.render ++ " + "
      ++ ("(" ++ ("1" ++ " - " ++ ratio) ++ ")" ++ " * " ++ e.render)) ++ ")" := by
  have hrender : (cond c t e).render
      = "((" ++ c.renderFactored ++ "/" ++ c.renderFactored ++ ") * " ++ t.render
        ++ " + (1 - " ++ c.renderFactored ++ "/" ++ c.renderFactored ++ ") * "
        ++ e.render ++ ")" := rfl
  have hopen : "((" = "(" ++ "(" := rfl
  have htimes : ") * " = ")" ++ " * " := rfl
  have hminus : " + (1 - " = " + " ++ "(" ++ "1" ++ " - " := rfl
  simp only [hrender, hopen, htimes, hminus, String.append_assoc]

omit [CharZero K] in
/-- A conditional is what its text abbreviates. -/
theorem value_cond (c : Poly) (t e : Form) :
    (cond c t e).value v = c.value v / c.value v * t.value v
      + (1 - c.value v / c.value v) * e.value v := by
  by_cases h : c.value v = 0
  · rw [value_cond_of_eq_zero h, h, div_zero, zero_mul, sub_zero, one_mul, zero_add]
  · rw [value_cond_of_ne_zero h, div_self h, sub_self, zero_mul, one_mul, add_zero]

/-- The text of a well-formed form denotes its value. -/
theorem shows_render {a : Form} (ha : a.WellFormed) (hnames : a.Named) :
    Shows v 1 a.render (a.value v) := by
  induction a with
  | poly p => exact Poly.shows_renderFactored hnames
  | frac n d =>
    have hd := Poly.shows_renderFactored_of_not_isConstant (v := v) hnames.2 ha.2
    have hquotient := (Poly.shows_renderFactored (v := v) hnames.1).div (o := " / ")
      (Spells.spaced_operator .divide) hd.of_le
    rw [render_frac]
    exact hquotient.of_le.parens.of_le
  | cond c t e iht ihe =>
    obtain ⟨hcond, ht, he⟩ := ha
    have hc := Poly.shows_renderFactored_of_not_isConstant (v := v) hnames.1
      hcond.isConstant_condition
    have hratio : Shows v 1 (c.renderFactored ++ "/" ++ c.renderFactored)
        (c.value v / c.value v) :=
      hc.of_le.div (Spells.single (.operator .divide)) hc.of_le
    have hone : Shows v 0 "1" (1 : K) := by
      have hnat := shows_nat (v := v) 1
      rw [Nat.cast_one] at hnat
      exact hnat.of_le
    have hcomplement := hone.sub (o := " - ") (Spells.spaced_operator .minus) hratio
    have hthen := hratio.of_le.parens.of_le.mul (o := " * ")
      (Spells.spaced_operator .times) (iht ht hnames.2.1)
    have helse := hcomplement.parens.of_le.mul (o := " * ")
      (Spells.spaced_operator .times) (ihe he hnames.2.2)
    have hsum := hthen.of_le.add (o := " + ") (Spells.spaced_operator .plus)
      helse
    rw [render_cond, value_cond]
    exact hsum.parens.of_le

end Form

/-! ## What is written is what is meant -/

omit [CharZero K] in
/-- A text that shows a value denotes this value and no other. -/
theorem Shows.textEvaluates_iff {text : String} {x : K} (h : Shows v 0 text x) (y : K) :
    TextEvaluates v text y ↔ y = x := by
  refine ⟨fun hy => hy.unique h.textEvaluates, ?_⟩
  rintro rfl
  exact h.textEvaluates

/-- Polynomials whose texts have the same values are equal. -/
theorem Poly.eq_of_shows {p q : Poly} {s : String}
    (hp : ∀ v : String → ℚ, Shows v 0 s (p.value v))
    (hq : ∀ v : String → ℚ, Shows v 0 s (q.value v)) : p = q :=
  eq_of_value_eq fun v => (hp v).textEvaluates.unique (hq v).textEvaluates

/-- With the usual conventions, the text of a well-formed form has exactly one value, which is
that of the form; the texts of a polynomial and of its factorization have the value of the
polynomial.  So polynomials that are written alike are equal. -/
theorem textEvaluates_render (v : String → K) :
    (∀ a : Form, a.WellFormed → a.Named → ∀ x, TextEvaluates v a.render x ↔ x = a.value v) ∧
    (∀ p : Poly, p.Named → ∀ x, TextEvaluates v p.factorize.render x ↔ x = p.value v) ∧
    (∀ p : Poly, p.Named → ∀ x, TextEvaluates v p.render x ↔ x = p.value v) ∧
    (∀ p q : Poly, p.Named → q.Named → p.render = q.render → p = q) ∧
    (∀ p q : Poly, p.Named → q.Named → p.factorize.render = q.factorize.render → p = q) := by
  refine ⟨fun a ha hnames => ?_, fun p hp => ?_, fun p hp => ?_, fun p q hp hq h => ?_,
    fun p q hp hq h => ?_⟩
  · exact (Form.shows_render ha hnames).of_le.textEvaluates_iff
  · exact (Poly.shows_render_factorize hp).textEvaluates_iff
  · exact (Poly.shows_render hp).textEvaluates_iff
  · exact Poly.eq_of_shows (fun _ => Poly.shows_render hp) fun _ => h ▸ Poly.shows_render hq
  · exact Poly.eq_of_shows (fun _ => Poly.shows_render_factorize hp) fun _ =>
      h ▸ Poly.shows_render_factorize hq

end Meadow
