import Mathlib
import Meadow.Form.Eval
import Meadow.Proofs.Form.Value
import Meadow.Proofs.Poly.Radical

set_option autoImplicit false

/-!
# Well-formed forms

A well-formed form has no quotient and no conditional that could be put more simply at
sight.  The two ways of building forms make well-formed ones of well-formed branches
(`Form.wellFormed_quotient`, `Form.WellFormed.branch`), and each operation is built of these
alone; evaluation and negation rebuild a form as a whole, so that theirs is well formed
whatever was given.
-/

namespace Meadow.Form

/-! ## The invariant -/

/-- A conditional that says no more than it has to: the condition is its own radical, and no
branch is one that the condition itself settles. -/
structure Irredundant (c : Poly) (t e : Form) : Prop where
  isConstant_condition : c.isConstant = false
  radical_condition : c.radical = c
  branches_ne : t ≠ e
  nonzero_ne_cond (t' e' : Form) : t ≠ cond c t' e'
  zero_ne_cond (t' e' : Form) : e ≠ cond c t' e'
  zero_ne_poly : e ≠ poly c
  zero_ne_frac (n d : Poly) (h : e = frac n d) : n ≠ c ∧ d ≠ c

/-- Quotients have a numerator other than zero and a denominator that is not constant, and
conditionals are irredundant, at every depth. -/
def WellFormed : Form → Prop
  | poly _ => True
  | frac n d => n ≠ 0 ∧ d.isConstant = false
  | cond c t e => Irredundant c t e ∧ t.WellFormed ∧ e.WellFormed

theorem wellFormed_poly (p : Poly) : (poly p).WellFormed := trivial

/-! ## Building -/

theorem wellFormed_quotient (n d : Poly) : (quotient n d).WellFormed := by
  unfold quotient
  split
  · exact wellFormed_poly _
  · next h =>
    rw [Bool.or_eq_true, not_or, Poly.isZero_iff] at h
    split
    · exact wellFormed_poly _
    · next hd => exact ⟨h.1, Poly.constantValue?_eq_none_iff.1 hd⟩

theorem WellFormed.underNonzero {c : Poly} {t : Form} (h : t.WellFormed) :
    (underNonzero c t).WellFormed ∧ ∀ t' e', underNonzero c t ≠ cond c t' e' := by
  cases t with
  | poly p => exact ⟨h, fun _ _ heq => by cases heq⟩
  | frac n d => exact ⟨h, fun _ _ heq => by cases heq⟩
  | cond c' t e =>
    rw [Form.underNonzero]
    split
    · next heq =>
      subst heq
      exact ⟨h.2.1, h.1.nonzero_ne_cond⟩
    · next hne =>
      refine ⟨h, fun _ _ heq => ?_⟩
      cases heq
      exact hne rfl

theorem WellFormed.underZero {c : Poly} {e : Form} (h : e.WellFormed) :
    (underZero c e).WellFormed := by
  cases e with
  | poly p =>
    rw [Form.underZero]
    split
    · exact wellFormed_poly _
    · exact h
  | frac n d =>
    rw [Form.underZero]
    split
    · exact wellFormed_poly _
    · exact h
  | cond c' t e =>
    rw [Form.underZero]
    split
    · exact h.2.2
    · exact h

/-- A branch for zero that has been simplified is settled by the condition no more. -/
theorem WellFormed.irredundant_underZero {c : Poly} {t e : Form} (h : e.WellFormed)
    (hconst : c.isConstant = false) (hradical : c.radical = c) (hne : t ≠ Form.underZero c e)
    (ht : ∀ t' e', t ≠ cond c t' e') : Irredundant c t (Form.underZero c e) := by
  have hzero : Form.zero ≠ poly c := by
    intro heq
    rw [← poly.inj heq] at hconst
    cases hconst
  have hsettled : (∀ t' e', Form.underZero c e ≠ cond c t' e') ∧ Form.underZero c e ≠ poly c ∧
      ∀ n d, Form.underZero c e = frac n d → n ≠ c ∧ d ≠ c := by
    cases e with
    | poly p =>
      rw [Form.underZero]
      split
      · exact ⟨fun _ _ heq => (by cases heq), hzero, fun _ _ heq => (by cases heq)⟩
      · next hp =>
        exact ⟨fun _ _ heq => (by cases heq), fun heq => hp (poly.inj heq),
          fun _ _ heq => (by cases heq)⟩
    | frac n d =>
      rw [Form.underZero]
      split
      · exact ⟨fun _ _ heq => (by cases heq), hzero, fun _ _ heq => (by cases heq)⟩
      · next hnd =>
        rw [not_or] at hnd
        refine ⟨fun _ _ heq => (by cases heq), fun heq => (by cases heq), ?_⟩
        intro n' d' heq
        cases heq
        exact hnd
    | cond c' t' e =>
      rw [Form.underZero]
      split
      · next heq =>
        subst heq
        exact ⟨h.1.zero_ne_cond, h.1.zero_ne_poly, h.1.zero_ne_frac⟩
      · next hcond =>
        refine ⟨fun _ _ heq => ?_, fun heq => (by cases heq), fun _ _ heq => (by cases heq)⟩
        cases heq
        exact hcond rfl
  exact ⟨hconst, hradical, hne, ht, hsettled.1, hsettled.2.1, hsettled.2.2⟩

/-- A conditional of well-formed branches is well formed. -/
theorem WellFormed.branch {c : Poly} {t e : Form} (ht : t.WellFormed) (he : e.WellFormed) :
    (branch c t e).WellFormed := by
  obtain ⟨htwf, htcond⟩ := ht.underNonzero (c := c.radical)
  have hewf := he.underZero (c := c.radical)
  unfold Form.branch
  dsimp only
  split
  · exact htwf
  · next hne =>
    split
    · exact hewf
    · split
      · exact htwf
      · next hconst =>
        rw [Bool.not_eq_true] at hconst
        exact ⟨he.irredundant_underZero hconst (Poly.radical_radical c) hne htcond, htwf, hewf⟩

/-! ## Arithmetic -/

theorem wellFormed_neg (f : Form) : f.neg.WellFormed := by
  induction f with
  | poly p => exact wellFormed_poly _
  | frac n d => exact wellFormed_quotient _ _
  | cond c t e iht ihe => exact iht.branch ihe

theorem wellFormed_addPoly (p : Poly) (f : Form) : (addPoly p f).WellFormed := by
  induction f with
  | poly q => exact wellFormed_poly _
  | frac n d => exact (wellFormed_quotient _ _).branch (wellFormed_poly p)
  | cond c t e iht ihe => exact iht.branch ihe

theorem WellFormed.addFrac {n d : Poly} {f : Form} (hfrac : (frac n d).WellFormed)
    (hf : f.WellFormed) : (addFrac n d f).WellFormed := by
  induction f with
  | poly q =>
    rw [Form.addFrac]
    split
    · exact hfrac
    · exact wellFormed_addPoly _ _
  | frac n' d' =>
    rw [Form.addFrac]
    split
    · exact wellFormed_quotient _ _
    · exact ((wellFormed_quotient _ _).branch hfrac).branch hf
  | cond c t e iht ihe =>
    obtain ⟨-, ht, he⟩ := hf
    rw [Form.addFrac]
    split
    · exact (iht ht).branch he
    · exact ((iht ht).branch ht).branch ((ihe he).branch he)

theorem WellFormed.add {a b : Form} (ha : a.WellFormed) (hb : b.WellFormed) :
    (a.add b).WellFormed := by
  induction a generalizing b with
  | poly p =>
    rw [Form.add]
    split
    · exact hb
    · exact wellFormed_addPoly _ _
  | frac n d => exact ha.addFrac hb
  | cond c t e iht ihe =>
    cases b with
    | poly q =>
      rw [Form.add]
      split
      · exact ha
      · exact wellFormed_addPoly _ _
    | frac n d => exact hb.addFrac ha
    | cond c' t' e' =>
      rw [Form.add]
      split
      · exact (iht ha.2.1 hb.2.1).branch (ihe ha.2.2 hb.2.2)
      · exact (iht ha.2.1 hb).branch (ihe ha.2.2 hb)

theorem WellFormed.sub {a : Form} (ha : a.WellFormed) (b : Form) : (a.sub b).WellFormed := by
  rw [Form.sub]
  split
  · exact wellFormed_neg b
  · split
    · exact ha
    · exact ha.add (wellFormed_neg b)

theorem wellFormed_mulPoly (p : Poly) (f : Form) : (mulPoly p f).WellFormed := by
  induction f with
  | poly q => exact wellFormed_poly _
  | frac n d => exact wellFormed_quotient _ _
  | cond c t e iht ihe => exact iht.branch ihe

theorem WellFormed.mulFrac {n d : Poly} (hfrac : (frac n d).WellFormed) (f : Form) :
    (mulFrac n d f).WellFormed := by
  induction f with
  | poly q =>
    rw [Form.mulFrac]
    split
    · exact wellFormed_poly _
    · split
      · exact hfrac
      · exact wellFormed_quotient _ _
  | frac n' d' => exact wellFormed_quotient _ _
  | cond c t e iht ihe =>
    refine iht.branch ?_
    split
    · exact wellFormed_poly _
    · exact ihe

theorem WellFormed.mul {a b : Form} (ha : a.WellFormed) (hb : b.WellFormed) :
    (a.mul b).WellFormed := by
  induction a generalizing b with
  | poly p =>
    rw [Form.mul]
    split
    · exact wellFormed_poly _
    · split
      · exact hb
      · exact wellFormed_mulPoly _ _
  | frac n d => exact ha.mulFrac b
  | cond c t e iht ihe =>
    cases b with
    | poly q =>
      rw [Form.mul]
      split
      · exact wellFormed_poly _
      · split
        · exact ha
        · exact wellFormed_mulPoly _ _
    | frac n d => exact hb.mulFrac _
    | cond c' t' e' =>
      rw [Form.mul]
      split
      · exact (iht ha.2.1 hb.2.1).branch (ihe ha.2.2 hb.2.2)
      · exact (iht ha.2.1 hb).branch (ihe ha.2.2 hb)

theorem wellFormed_divPoly (p : Poly) (f : Form) : (divPoly p f).WellFormed := by
  induction f with
  | poly q => exact wellFormed_quotient _ _
  | frac n d => exact wellFormed_quotient _ _
  | cond c t e iht ihe => exact iht.branch ihe

theorem WellFormed.divFrac {n d : Poly} (hfrac : (frac n d).WellFormed) (f : Form) :
    (divFrac n d f).WellFormed := by
  induction f with
  | poly q =>
    rw [Form.divFrac]
    split
    · exact wellFormed_poly _
    · split
      · exact hfrac
      · exact wellFormed_quotient _ _
  | frac n' d' => exact wellFormed_quotient _ _
  | cond c t e iht ihe =>
    refine iht.branch ?_
    split
    · exact wellFormed_poly _
    · exact ihe

theorem WellFormed.div {a : Form} (ha : a.WellFormed) (b : Form) : (a.div b).WellFormed := by
  induction a generalizing b with
  | poly p => exact wellFormed_divPoly p b
  | frac n d => exact ha.divFrac b
  | cond c t e iht ihe =>
    have hbranch := (iht ha.2.1 b).branch (c := c) (ihe ha.2.2 b)
    unfold Form.div
    split
    · exact wellFormed_poly _
    · split
      · exact ha
      · split
        · split
          · exact (iht ha.2.1 _).branch (ihe ha.2.2 _)
          · exact hbranch
        · exact hbranch

/-! ## Evaluation -/

/-- A product of polynomials is a polynomial. -/
theorem wellFormed_mul_poly (p q : Poly) : ((poly p).mul (poly q)).WellFormed :=
  (wellFormed_poly p).mul (wellFormed_poly q)

/-- Evaluation ends at polynomials and joins them by conditionals. -/
theorem wellFormed_eval (f : Form) (a : Assumptions) : (f.eval a).WellFormed := by
  induction f generalizing a with
  | poly p => exact wellFormed_poly _
  | frac n d => exact wellFormed_mul_poly _ _
  | cond c t e iht ihe =>
    rw [eval]
    split
    · exact ihe a
    · dsimp only
      split
      · exact iht _
      · split
        · exact (iht _).branch (ihe a)
        · cases hfirst : List.findSome? _ _ with
          | none => exact wellFormed_poly _
          | some g =>
            obtain ⟨r, -, hr⟩ := List.exists_of_findSome?_eq_some hfirst
            split at hr
            · cases hr
            · cases hr
              exact ihe _

end Meadow.Form
