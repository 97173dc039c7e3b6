import Mathlib
import Meadow.Proofs.Form.Arithmetic
import Meadow.Proofs.Form.WellFormed
import Meadow.Proofs.Stored.Factor
import Meadow.Stored.Form

set_option autoImplicit false

/-!
# What stored forms represent

A stored form represents the form of the same shape whose polynomials its own ones represent.  Every
operation on stored forms goes into branches as the operation on forms does, so it does the same
unless an exponent overflows; and then it has the value that it is named for
(`Stored.Form.value_operations`).
-/

namespace Meadow

open Machine (Ensures Returns Overflows)

namespace Form

theorem divPoly_zero (b : Form) : divPoly .zero b = zero := by
  induction b with
  | poly q => rfl
  | frac n d => rfl
  | cond c t e iht ihe =>
    have hzero : underZero c.radical zero = zero := ite_self _
    rw [divPoly, iht, ihe, branch, hzero]
    exact if_pos rfl

end Form

namespace Stored.Form

/-! ## Representation -/

/-- The stored form has the shape of the form, and its polynomials represent those of the form. -/
inductive Represents : Form → Meadow.Form → Prop
  | poly {p : Poly} {a : Meadow.Poly} (h : p.Represents a) : Represents (.poly p) (.poly a)
  | frac {n d : Poly} {a b : Meadow.Poly} (hn : n.Represents a) (hd : d.Represents b) :
      Represents (.frac n d) (.frac a b)
  | cond {c : Poly} {c' : Meadow.Poly} {t e : Form} {t' e' : Meadow.Form} (hc : c.Represents c')
      (ht : Represents t t') (he : Represents e e') : Represents (.cond c t e) (.cond c' t' e')

variable {f g : Form} {x y : Meadow.Form} {c d n p : Poly} {c' d' n' p' : Meadow.Poly}

/-- Stored forms are equal exactly if they represent equal forms. -/
theorem Represents.eq_iff (hf : f.Represents x) (hg : g.Represents y) : f = g ↔ x = y := by
  induction hf generalizing g y with
  | poly hp =>
    cases hg with
    | poly hq => rw [poly.injEq, Meadow.Form.poly.injEq, hp.eq_iff hq]
    | frac _ _ | cond _ _ _ => exact iff_of_false nofun nofun
  | frac hn hd =>
    cases hg with
    | frac hn' hd' => rw [frac.injEq, Meadow.Form.frac.injEq, hn.eq_iff hn', hd.eq_iff hd']
    | poly _ | cond _ _ _ => exact iff_of_false nofun nofun
  | cond hc _ _ iht ihe =>
    cases hg with
    | cond hc' ht' he' =>
      rw [cond.injEq, Meadow.Form.cond.injEq, hc.eq_iff hc', iht ht', ihe he']
    | poly _ | frac _ _ => exact iff_of_false nofun nofun

theorem represents_zero : zero.Represents .zero := .poly Poly.represents_zero

theorem Represents.isZero (h : f.Represents x) : f.isZero = x.isZero := by
  cases h with
  | poly hp => exact hp.isZero
  | frac _ _ | cond _ _ _ => rfl

theorem Represents.isOne (h : f.Represents x) : f.isOne = x.isOne := by
  cases h with
  | poly hp => exact hp.isOne
  | frac _ _ | cond _ _ _ => rfl

theorem Represents.varSet (h : f.Represents x) : f.varSet = x.varSet := by
  induction h with
  | poly hp => exact hp.nameSet
  | frac hn hd => rw [Form.varSet, Meadow.Form.varSet, hn.nameSet, hd.nameSet]
  | cond hc _ _ iht ihe => rw [Form.varSet, Meadow.Form.varSet, hc.nameSet, iht, ihe]

theorem Represents.vars (h : f.Represents x) : f.vars = x.vars := by
  rw [Form.vars, Meadow.Form.vars, h.varSet]

/-! ## Quotients and conditionals -/

theorem represents_quotient (hn : n.Represents n') (hd : d.Represents d') :
    (quotient n d).Represents (.quotient n' d') := by
  rw [quotient, Meadow.Form.quotient, hn.isZero, hd.isZero, hd.constantValue?]
  split
  · exact represents_zero
  · cases d'.constantValue? with
    | some r => exact .poly (hn.scale r⁻¹)
    | none => exact .frac hn hd

theorem Represents.underNonzero (hc : c.Represents c') (h : f.Represents x) :
    (underNonzero c f).Represents (x.underNonzero c') := by
  cases h with
  | poly hp => exact .poly hp
  | frac hn hd => exact .frac hn hd
  | cond hd ht he => exact rel_ite (hd.eq_iff hc) ht (.cond hd ht he)

theorem Represents.underZero (hc : c.Represents c') (h : f.Represents x) :
    (underZero c f).Represents (x.underZero c') := by
  cases h with
  | poly hp => exact rel_ite (hp.eq_iff hc) represents_zero (.poly hp)
  | frac hn hd =>
    exact rel_ite (or_congr (hn.eq_iff hc) (hd.eq_iff hc)) represents_zero (.frac hn hd)
  | cond hd ht he => exact rel_ite (hd.eq_iff hc) he (.cond hd ht he)

theorem represents_select (hc : c.Represents c'.radical) (hf : f.Represents x)
    (hg : g.Represents y) : (select c f g).Represents (.branch c' x y) := by
  have ht := hf.underNonzero hc
  have he := hg.underZero hc
  rw [select, Meadow.Form.branch, hc.isZero, hc.isConstant]
  refine rel_ite (ht.eq_iff he) ht ?_
  split
  · exact he
  · split
    · exact ht
    · exact .cond hc ht he

theorem represents_branch (hc : c.Represents c') (hf : f.Represents x) (hg : g.Represents y) :
    Ensures (branch c f g) (·.Represents (.branch c' x y)) :=
  hc.radical.map fun _ hr => represents_select hr hf hg

/-- Branches that are computed first. -/
theorem ensures_branch {l m : Machine Form} (hc : c.Represents c')
    (hl : Ensures l (·.Represents x)) (hm : Ensures m (·.Represents y)) :
    Ensures (do branch c (← l) (← m)) (·.Represents (.branch c' x y)) :=
  hl.bind fun _ hf => hm.bind fun _ hg => represents_branch hc hf hg

/-- A branch for a zero condition that is zero if the condition is the denominator. -/
theorem ensures_branch_zero {l m : Machine Form} (hd : d.Represents d') (hc : c.Represents c')
    (hl : Ensures l (·.Represents x)) (hm : Ensures m (·.Represents y)) :
    Ensures (do
      let g ← if d = c then pure zero else m
      branch c (← l) g) (·.Represents (.branch c' x (if d' = c' then .zero else y))) := by
  have heq := hd.eq_iff hc
  split
  · next h =>
    rw [if_pos (heq.1 h)]
    exact hl.bind fun _ hf => represents_branch hc hf represents_zero
  · next h =>
    rw [if_neg (mt heq.2 h)]
    exact hm.bind fun _ hg => hl.bind fun _ hf => represents_branch hc hf hg

/-! ## Negation and sums -/

theorem Represents.neg (h : f.Represents x) : Ensures f.neg (·.Represents x.neg) := by
  induction h with
  | poly hp => exact Machine.ensures_pure (.poly hp.neg)
  | frac hn hd => exact Machine.ensures_pure (represents_quotient hn.neg hd)
  | cond hc _ _ iht ihe =>
    exact ensures_branch hc iht ihe

theorem Represents.addPoly (hp : p.Represents p') (h : f.Represents x) :
    Ensures (addPoly p f) (·.Represents (x.addPoly p')) := by
  induction h with
  | poly hq => exact Machine.ensures_pure (.poly (hp.add hq))
  | frac hn hd =>
    refine (hp.mul hd).bind fun _ hm => ?_
    exact represents_branch hd (represents_quotient (hm.add hn) hd) (.poly hp)
  | cond hc _ _ iht ihe =>
    exact ensures_branch hc iht ihe

theorem Represents.addFrac (hn : n.Represents n') (hd : d.Represents d') (h : f.Represents x) :
    Ensures (addFrac n d f) (·.Represents (x.addFrac n' d')) := by
  have hfrac : Represents (.frac n d) (.frac n' d') := .frac hn hd
  induction h with
  | poly hq =>
    rw [Form.addFrac, Meadow.Form.addFrac, hq.isZero]
    split
    · exact Machine.ensures_pure hfrac
    · exact hfrac.addPoly hq
  | frac hm hk =>
    refine Ensures.ite (S := Represents) (hd.eq_iff hk)
      (Machine.ensures_pure (represents_quotient (hn.add hm) hd)) ?_
    refine (hn.mul hk).bind fun _ hleft => (hd.mul hm).bind fun _ hright => ?_
    refine (hd.mul hk).bind fun _ hden => ?_
    refine (represents_branch hk (represents_quotient (hleft.add hright) hden) hfrac).bind
      fun _ hinner => ?_
    exact represents_branch hd hinner (.frac hm hk)
  | cond hc ht he iht ihe =>
    refine Ensures.ite (S := Represents) (hd.eq_iff hc)
      (iht.bind fun _ ht => represents_branch hc ht he) ?_
    refine iht.bind fun _ hsum => (represents_branch hd hsum ht).bind fun _ hleft => ?_
    refine ihe.bind fun _ hsum => (represents_branch hd hsum he).bind fun _ hright => ?_
    exact represents_branch hc hleft hright

theorem Represents.add (hf : f.Represents x) (hg : g.Represents y) :
    Ensures (f.add g) (·.Represents (x.add y)) := by
  induction hf generalizing g y with
  | poly hp =>
    rw [Form.add, Meadow.Form.add, hp.isZero]
    split
    · exact Machine.ensures_pure hg
    · exact hg.addPoly hp
  | frac hn hd => exact hg.addFrac hn hd
  | cond hc ht he iht ihe =>
    have hcond := Represents.cond hc ht he
    cases hg with
    | poly hq =>
      rw [Form.add, Meadow.Form.add, hq.isZero]
      split
      · exact Machine.ensures_pure hcond
      · exact hcond.addPoly hq
    | frac hn hd => exact hcond.addFrac hn hd
    | cond hc' ht' he' =>
      have hcond' := Represents.cond hc' ht' he'
      refine Ensures.ite (S := Represents) (hc.eq_iff hc') ?_ ?_
      · exact ensures_branch hc (iht ht') (ihe he')
      · exact ensures_branch hc (iht hcond') (ihe hcond')

theorem Represents.sub (hf : f.Represents x) (hg : g.Represents y) :
    Ensures (f.sub g) (·.Represents (x.sub y)) := by
  rw [Form.sub, Meadow.Form.sub, hf.isZero, hg.isZero]
  split
  · exact hg.neg
  · split
    · exact Machine.ensures_pure hf
    · exact hg.neg.bind fun _ hneg => hf.add hneg

/-! ## Products -/

theorem Represents.mulPoly (hp : p.Represents p') (h : f.Represents x) :
    Ensures (mulPoly p f) (·.Represents (x.mulPoly p')) := by
  induction h with
  | poly hq => exact (hp.mul hq).map fun _ hm => .poly hm
  | frac hn hd => exact (hp.mul hn).map fun _ hm => represents_quotient hm hd
  | cond hc _ _ iht ihe =>
    exact ensures_branch hc iht ihe

theorem Represents.mulFrac (hn : n.Represents n') (hd : d.Represents d') (h : f.Represents x) :
    Ensures (mulFrac n d f) (·.Represents (x.mulFrac n' d')) := by
  induction h with
  | poly hq =>
    rw [Form.mulFrac, Meadow.Form.mulFrac, hq.isZero, hq.isOne]
    split
    · exact Machine.ensures_pure represents_zero
    · split
      · exact Machine.ensures_pure (.frac hn hd)
      · exact (hq.mul hn).map fun _ hm => represents_quotient hm hd
  | frac hm hk =>
    exact (hn.mul hm).bind fun _ hnum => (hd.mul hk).map fun _ hden => represents_quotient hnum hden
  | cond hc _ _ iht ihe => exact ensures_branch_zero hd hc iht ihe

theorem Represents.mul (hf : f.Represents x) (hg : g.Represents y) :
    Ensures (f.mul g) (·.Represents (x.mul y)) := by
  induction hf generalizing g y with
  | poly hp =>
    rw [Form.mul, Meadow.Form.mul, hp.isZero, hp.isOne]
    split
    · exact Machine.ensures_pure represents_zero
    · split
      · exact Machine.ensures_pure hg
      · exact hg.mulPoly hp
  | frac hn hd => exact hg.mulFrac hn hd
  | cond hc ht he iht ihe =>
    have hcond := Represents.cond hc ht he
    cases hg with
    | poly hq =>
      rw [Form.mul, Meadow.Form.mul, hq.isZero, hq.isOne]
      split
      · exact Machine.ensures_pure represents_zero
      · split
        · exact Machine.ensures_pure hcond
        · exact hcond.mulPoly hq
    | frac hn hd => exact hcond.mulFrac hn hd
    | cond hc' ht' he' =>
      have hcond' := Represents.cond hc' ht' he'
      refine Ensures.ite (S := Represents) (hc.eq_iff hc') ?_ ?_
      · exact ensures_branch hc (iht ht') (ihe he')
      · exact ensures_branch hc (iht hcond') (ihe hcond')

/-! ## Quotients of forms -/

theorem Represents.divPoly (hp : p.Represents p') (h : f.Represents x) :
    Ensures (divPoly p f) (·.Represents (x.divPoly p')) := by
  induction h with
  | poly hq => exact Machine.ensures_pure (represents_quotient hp hq)
  | frac hn hd => exact (hp.mul hd).map fun _ hm => represents_quotient hm hn
  | cond hc _ _ iht ihe =>
    exact ensures_branch hc iht ihe

theorem Represents.divFrac (hn : n.Represents n') (hd : d.Represents d') (h : f.Represents x) :
    Ensures (divFrac n d f) (·.Represents (x.divFrac n' d')) := by
  induction h with
  | poly hq =>
    rw [Form.divFrac, Meadow.Form.divFrac, hq.isZero, hq.isOne]
    split
    · exact Machine.ensures_pure represents_zero
    · split
      · exact Machine.ensures_pure (.frac hn hd)
      · exact (hd.mul hq).map fun _ hm => represents_quotient hn hm
  | frac hm hk =>
    exact (hn.mul hk).bind fun _ hnum => (hd.mul hm).map fun _ hden => represents_quotient hnum hden
  | cond hc _ _ iht ihe => exact ensures_branch_zero hd hc iht ihe

theorem Represents.div (hf : f.Represents x) (hg : g.Represents y) :
    Ensures (f.div g) (·.Represents (x.div y)) := by
  induction hf generalizing g y with
  | @poly p p' hp =>
    rw [Form.div, Meadow.Form.div, hp.isZero]
    split
    · next h0 =>
      rw [Meadow.Poly.isZero_iff.1 h0, ← Meadow.Poly.zero_def, Meadow.Form.divPoly_zero]
      exact Machine.ensures_pure represents_zero
    · exact hg.divPoly hp
  | frac hn hd => exact hg.divFrac hn hd
  | cond hc ht he iht ihe =>
    unfold Form.div Meadow.Form.div
    rw [hg.isZero, hg.isOne]
    split
    · exact Machine.ensures_pure represents_zero
    · split
      · exact Machine.ensures_pure (.cond hc ht he)
      · have hwhole := ensures_branch hc (iht hg) (ihe hg)
        cases hg with
        | poly _ | frac _ _ => exact hwhole
        | cond hc' ht' he' =>
          refine Ensures.ite (S := Represents) (hc.eq_iff hc') ?_ hwhole
          exact ensures_branch hc (iht ht') (ihe he')

/-! ## Values -/

/-- All polynomials of the form are proper. -/
def Proper : Form → Prop
  | poly p => p.Proper
  | frac n d => n.Proper ∧ d.Proper
  | cond c t e => c.Proper ∧ t.Proper ∧ e.Proper

/-- The stored forms that represent one are the proper ones. -/
theorem proper_iff : f.Proper ↔ ∃ x, f.Represents x := by
  constructor
  · intro h
    induction f with
    | poly p =>
      obtain ⟨a, hp⟩ := Poly.proper_iff.1 h
      exact ⟨_, .poly hp⟩
    | frac n d =>
      obtain ⟨a, hn⟩ := Poly.proper_iff.1 h.1
      obtain ⟨b, hd⟩ := Poly.proper_iff.1 h.2
      exact ⟨_, .frac hn hd⟩
    | cond c t e iht ihe =>
      obtain ⟨a, hc⟩ := Poly.proper_iff.1 h.1
      obtain ⟨x, ht⟩ := iht h.2.1
      obtain ⟨y, he⟩ := ihe h.2.2
      exact ⟨_, .cond hc ht he⟩
  · rintro ⟨x, h⟩
    induction h with
    | poly hp => exact Poly.proper_iff.2 ⟨_, hp⟩
    | frac hn hd => exact ⟨Poly.proper_iff.2 ⟨_, hn⟩, Poly.proper_iff.2 ⟨_, hd⟩⟩
    | cond hc _ _ iht ihe => exact ⟨Poly.proper_iff.2 ⟨_, hc⟩, iht, ihe⟩

section Value

variable {K : Type*} [Field K]

open Classical in
/-- The value of a stored form at a valuation of the variables. -/
noncomputable def value (v : String → K) : Form → K
  | poly p => p.value v
  | frac n d => n.value v / d.value v
  | cond c t e => if c.value v = 0 then e.value v else t.value v

theorem Represents.value (h : f.Represents x) (v : String → K) : f.value v = x.value v := by
  induction h with
  | poly hp => exact hp.value v
  | frac hn hd => rw [Form.value, Meadow.Form.value, hn.value, hd.value]
  | cond hc _ _ iht ihe => rw [Form.value, Meadow.Form.value, hc.value, iht, ihe]

/-- A computation of what represents a form has the value of the form. -/
theorem ensures_value {m : Machine Form} (h : Ensures m (·.Represents x)) (v : String → K) :
    Ensures m fun r => r.Proper ∧ r.value v = x.value v :=
  h.mono fun _ hr => ⟨proper_iff.2 ⟨x, hr⟩, hr.value v⟩

open Classical in
/-- Unless an exponent overflows, all operations on stored forms have the values that they are named
for, at every valuation in every field of characteristic zero. -/
theorem value_operations [CharZero K] (v : String → K) (hf : f.Proper) (hg : g.Proper) :
    Ensures f.neg (fun r => r.Proper ∧ r.value v = -f.value v) ∧
    Ensures (f.add g) (fun r => r.Proper ∧ r.value v = f.value v + g.value v) ∧
    Ensures (f.sub g) (fun r => r.Proper ∧ r.value v = f.value v - g.value v) ∧
    Ensures (f.mul g) (fun r => r.Proper ∧ r.value v = f.value v * g.value v) ∧
    Ensures (f.div g) (fun r => r.Proper ∧ r.value v = f.value v / g.value v) ∧
    (∀ n d : Poly, n.Proper → d.Proper → (quotient n d).Proper ∧
      (quotient n d).value v = n.value v / d.value v) ∧
    ∀ c : Poly, c.Proper → Ensures (branch c f g) fun r => r.Proper ∧
      r.value v = if c.value v = 0 then g.value v else f.value v := by
  obtain ⟨x, hf⟩ := proper_iff.1 hf
  obtain ⟨y, hg⟩ := proper_iff.1 hg
  obtain ⟨hneg, hadd, hsub, hmul, hdiv, hquotient, hbranch⟩ := Meadow.Form.value_arithmetic v
  rw [hf.value, hg.value, ← hneg, ← hadd, ← hsub, ← hmul, ← hdiv]
  refine ⟨ensures_value hf.neg v, ensures_value (hf.add hg) v, ensures_value (hf.sub hg) v,
    ensures_value (hf.mul hg) v, ensures_value (hf.div hg) v, fun n d hn hd => ?_, fun c hc => ?_⟩
  · obtain ⟨a, hn⟩ := Poly.proper_iff.1 hn
    obtain ⟨b, hd⟩ := Poly.proper_iff.1 hd
    have hfrac := represents_quotient hn hd
    refine ⟨proper_iff.2 ⟨_, hfrac⟩, ?_⟩
    rw [hfrac.value, hn.value, hd.value, hquotient]
  · obtain ⟨a, hc⟩ := Poly.proper_iff.1 hc
    rw [hc.value, ← hbranch]
    exact ensures_value (represents_branch hc hf hg) v

end Value

/-- A quotient of zero by itself is formed in both builds, and is zero. -/
theorem value_operations_zero_div_zero :
    (poly (.var "x")).Proper ∧
      Returns ((poly (.var "x")).div (poly (.var "x"))) (frac (.var "x") (.var "x")) ∧
      (frac (.var "x") (.var "x")).value (fun _ => (0 : ℚ)) = 0 := by
  have hx : (poly (.var "x")).Proper := proper_iff.2 ⟨_, .poly (Poly.represents_var "x")⟩
  have hreturns :
      Returns ((poly (.var "x")).div (poly (.var "x"))) (frac (.var "x") (.var "x")) := by
    decide_cbv
  obtain ⟨-, -, -, -, hdiv, -⟩ := value_operations (fun _ => (0 : ℚ)) hx hx
  refine ⟨hx, hreturns, (hdiv.of_returns hreturns).2.trans ?_⟩
  rw [(Represents.poly (Poly.represents_var "x")).value, Meadow.Form.value_poly,
    Meadow.Poly.value_var, div_zero]

/-- The value of a stored power where the variable is zero. -/
theorem value_power_at_zero (e : UInt32) :
    (poly (.monomial ⟨[("x", e)]⟩ 1)).value (fun _ => (0 : ℚ)) = 0 ^ e.toNat := by
  have hterms : (Poly.monomial ⟨[("x", e)]⟩ 1).terms = [(⟨[("x", e)]⟩, 1)] := by
    rw [Poly.monomial, Poly.terms, FinSupp.single, dif_neg one_ne_zero]
  rw [value, Poly.value, hterms]
  simp [Monomial.value]

/-- The wrapping build multiplies `x ^ 2 ^ 31` by itself to a power zero of `x`, which is one where
`x` is zero. -/
theorem value_mul_wraps :
    let f := poly (.monomial ⟨[("x", 0x80000000)]⟩ 1)
    f.Proper ∧ f.value (fun _ => (0 : ℚ)) = 0 ∧ Overflows (f.mul f) ∧
      ∃ r, (f.mul f).value? .wrapping = some r ∧ r.value (fun _ => (0 : ℚ)) = 1 := by
  intro f
  have hpower := Poly.represents_monomial
    (Monomial.represents_power "x" (w := 0x80000000) (k := 0x80000000) rfl) 1
  have hvalue : (f.mul f).value? .wrapping = some (poly (.monomial ⟨[("x", 0)]⟩ 1)) := by
    decide_cbv
  refine ⟨proper_iff.2 ⟨_, .poly hpower⟩, ?_, by decide_cbv, _, hvalue, ?_⟩
  · rw [value_power_at_zero]
    exact zero_pow (by decide)
  · rw [value_power_at_zero]
    exact pow_zero 0

/-! ## Well-formed forms -/

/-- The stored form represents a well-formed form. -/
def WellFormed (f : Form) : Prop := ∃ x, f.Represents x ∧ x.WellFormed

theorem WellFormed.proper (h : f.WellFormed) : f.Proper := by
  obtain ⟨x, hx, -⟩ := h
  exact proper_iff.2 ⟨x, hx⟩

/-- A well-formed quotient has a numerator other than zero and a denominator that is not
constant. -/
theorem WellFormed.of_frac (h : (frac n d).WellFormed) : n ≠ .zero ∧ d.isConstant = false := by
  obtain ⟨_, hrep, hwf⟩ := h
  cases hrep with
  | frac hn hd => exact ⟨mt hn.eq_zero_iff.1 hwf.1, hd.isConstant.trans hwf.2⟩

/-- A well-formed conditional has well-formed branches and says no more than it has to.  Its
condition is found to be its own radical, unless finding it overflows. -/
theorem WellFormed.of_cond (h : (cond c f g).WellFormed) :
    f.WellFormed ∧ g.WellFormed ∧ c.isConstant = false ∧ Ensures c.radical (· = c) ∧ f ≠ g ∧
      (∀ t e, f ≠ cond c t e) ∧ (∀ t e, g ≠ cond c t e) ∧ g ≠ poly c ∧
      ∀ n d, g = frac n d → n ≠ c ∧ d ≠ c := by
  obtain ⟨_, hrep, hwf⟩ := h
  cases hrep with
  | @cond _ c' _ _ t' e' hc hf hg =>
    obtain ⟨hirredundant, ht, he⟩ := hwf
    refine ⟨⟨_, hf, ht⟩, ⟨_, hg, he⟩, hc.isConstant.trans hirredundant.isConstant_condition,
      hc.radical.mono fun r hr => ?_, mt (hf.eq_iff hg).1 hirredundant.branches_ne,
      fun t e heq => ?_, fun t e heq => ?_, fun heq => ?_, fun n d heq => ?_⟩
    · rw [hirredundant.radical_condition] at hr
      exact (hr.eq_iff hc).2 rfl
    · subst heq
      cases hf with
      | cond hc' _ _ => exact hirredundant.nonzero_ne_cond _ _ (by rw [(hc'.eq_iff hc).1 rfl])
    · subst heq
      cases hg with
      | cond hc' _ _ => exact hirredundant.zero_ne_cond _ _ (by rw [(hc'.eq_iff hc).1 rfl])
    · subst heq
      cases hg with
      | poly hc' => exact hirredundant.zero_ne_poly (by rw [(hc'.eq_iff hc).1 rfl])
    · subst heq
      cases hg with
      | frac hn hd =>
        obtain ⟨hnum, hden⟩ := hirredundant.zero_ne_frac _ _ rfl
        exact ⟨mt (hn.eq_iff hc).1 hnum, mt (hd.eq_iff hc).1 hden⟩

end Stored.Form
end Meadow
