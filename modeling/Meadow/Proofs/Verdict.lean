import Mathlib
import Meadow.Proofs.CaseSplit
import Meadow.Proofs.Statement.Expression
import Meadow.Report

set_option autoImplicit false

/-!
# Verdicts

From a text that renders an equation to the truth of the equation.  What is reported
proven holds at every valuation in every field of characteristic zero (`prove_sound`).
What is reported refuted need not fail: this is so exactly when some leaf of the case
given as the counterexample is consistent (`refuted_genuine_iff`).
-/

namespace Meadow

open Expression

/-- The report on the equation that a text renders decides the difference of its
sides. -/
theorem outcome_of_renders {left right : Expression Arithmetic} {text : String}
    (h : (equation left right).Renders text) (limit : ℕ) :
    (prove limit text).outcome =
      match (left.form.sub right.form).decide limit with
      | .error e => .error e.message
      | .ok d => .ofDecision d := by
  have hparse := (parse_of_renders h).trans (evaluate_equation left right)
  rw [prove, hparse]
  dsimp only [Equation.difference]
  cases (left.form.sub right.form).decide limit with
  | error e => rfl
  | ok d => rfl

/-! ## Proven -/

theorem decide_of_proven {left right : Expression Arithmetic} {text : String}
    (h : (equation left right).Renders text) {limit : ℕ}
    (hproven : (prove limit text).outcome = .proven) :
    (left.form.sub right.form).decide limit = .ok .proven := by
  rw [outcome_of_renders h] at hproven
  split at hproven
  · cases hproven
  · next d hd =>
    cases d with
    | proven => exact hd
    | refuted c residue => cases hproven

/-- An equation that is reported proven holds: whatever text renders it, in every field
of characteristic zero and at every valuation both sides have the same value. -/
theorem prove_sound {left right : Expression Arithmetic} {text : String}
    (hrenders : (equation left right).Renders text) {limit : ℕ}
    (hproven : (prove limit text).outcome = .proven) {K : Type*} [Field K] [CharZero K]
    (v : String → K) : left.value v = right.value v := by
  rw [← value_difference_eq_zero_iff]
  exact Form.value_eq_zero_of_proven (decide_of_proven hrenders hproven) v

/-! ## Refuted -/

theorem decide_of_refuted {left right : Expression Arithmetic} {text : String}
    (h : (equation left right).Renders text) {limit : ℕ} {c : Case} {residue : String}
    (hrefuted : (prove limit text).outcome = .refuted c residue) :
    ∃ r, (left.form.sub right.form).decide limit = .ok (.refuted c r) := by
  rw [outcome_of_renders h] at hrefuted
  split at hrefuted
  · cases hrefuted
  · next d hd =>
    cases d with
    | proven => cases hrefuted
    | refuted c' r =>
      cases hrefuted
      exact ⟨r, hd⟩

/-- The equation fails somewhere in a case: at some valuation that the case fits, in some
algebraically closed field of characteristic zero. -/
def FailsIn (left right : Expression Arithmetic) (c : Case) : Prop :=
  ∃ (K : Type) (_ : Field K) (_ : IsAlgClosed K) (_ : CharZero K) (v : String → K),
    c.Fits v ∧ left.value v ≠ right.value v

/-- An equation fails in a case exactly when a leaf of the difference of its sides is
reached. -/
theorem failsIn_iff_exists_reached {left right : Expression Arithmetic} {c : Case} :
    FailsIn left right c ↔
      ∃ leaf ∈ (left.form.sub right.form).leaves c.assumptions, leaf.Reached := by
  constructor
  · rintro ⟨K, hfield, hclosed, hchar, v, hfits, hne⟩
    obtain ⟨leaf, hleaf, hholds⟩ :=
      Form.exists_leaf (left.form.sub right.form) (Case.holds_assumptions_iff.2 hfits)
    refine ⟨leaf, hleaf, K, hfield, hclosed, hchar, v, hholds, ?_⟩
    rw [← Form.value_eq_of_mem_leaves hleaf hholds, Ne, value_difference_eq_zero_iff]
    exact hne
  · rintro ⟨leaf, hleaf, K, hfield, hclosed, hchar, v, hholds, hvalue⟩
    refine ⟨K, hfield, hclosed, hchar, v, ?_, ?_⟩
    · exact Case.holds_assumptions_iff.1 (Form.holds_of_mem_leaves hleaf hholds)
    · rwa [← Form.value_eq_of_mem_leaves hleaf hholds, Ne, value_difference_eq_zero_iff] at hvalue

/-- When an equation is reported refuted, some leaf of the counterexample is not made
zero.  The equation fails there exactly when some leaf is consistent, which a leaf that is
not made zero is for certain if no condition was assumed to be zero on the way to it. -/
theorem refuted_genuine_iff {left right : Expression Arithmetic} {text : String}
    (hrenders : (equation left right).Renders text) {limit : ℕ} {c : Case} {residue : String}
    (hrefuted : (prove limit text).outcome = .refuted c residue) :
    (∃ leaf ∈ (left.form.sub right.form).leaves c.assumptions, ¬ leaf.Vanishes) ∧
    (FailsIn left right c ↔
      ∃ leaf ∈ (left.form.sub right.form).leaves c.assumptions, leaf.Consistent) ∧
    ∀ leaf ∈ (left.form.sub right.form).leaves c.assumptions, ¬ leaf.Vanishes →
      leaf.assumptions.zeros = c.assumptions.zeros → leaf.Consistent := by
  obtain ⟨r, hdecide⟩ := decide_of_refuted hrenders hrefuted
  obtain ⟨⟨n, rfl⟩, heval, hr⟩ := Form.eval_of_refuted hdecide
  refine ⟨?_, ?_, fun leaf hleaf hvanishes hzeros => ?_⟩
  · rw [← heval, Ne, Form.eval_eq_zero_iff] at hr
    push Not at hr
    exact hr
  · rw [failsIn_iff_exists_reached]
    simp only [Leaf.consistent_iff]
  · have hnodup : (left.form.sub right.form).vars.Nodup := FinSupp.nodup_keys _
    refine Form.consistent_of_zeros_eq hleaf hvanishes hzeros
      (Case.reduced_assumptions_ofNumber hnodup n) fun p hp => ?_
    obtain ⟨x, -, rfl⟩ := Case.contains_zeros.1 hp
    exact ⟨x, rfl⟩

/-- No number is its own successor. -/
theorem refuted_genuine_iff_successor :
    (prove 16 "((x+1)=x)").outcome = .refuted ⟨[]⟩ "1" ∧
      FailsIn (.binary .plus (letter 'x') (digit '1')) (letter 'x') ⟨[]⟩ := by
  have hrefuted : (prove 16 "((x+1)=x)").outcome = .refuted ⟨[]⟩ "1" := by decide +kernel
  have hrenders := renders_write (equation (.binary .plus (letter 'x') (digit '1')) (letter 'x'))
  obtain ⟨⟨leaf, hleaf, hvanishes⟩, hiff, hgenuine⟩ := refuted_genuine_iff hrenders hrefuted
  have hdifference : (form (.binary .plus (letter 'x') (digit '1'))).sub (form (letter 'x'))
      = .poly .one := by decide +kernel
  refine ⟨hrefuted, hiff.2 ⟨leaf, hleaf, hgenuine leaf hleaf hvanishes ?_⟩⟩
  rw [hdifference] at hleaf
  rw [List.mem_singleton.1 hleaf]

/-- One where an expression is zero, and zero where it is not. -/
def vanishing (e : Expression Arithmetic) : Expression Arithmetic :=
  .binary .minus (digit '1') (.binary .divide e e)

/-- An equation that says of no number that it is both one and two. -/
def disjointRoots : Expression Arithmetic :=
  .binary .times (vanishing (.binary .minus (letter 'x') (digit '1')))
    (vanishing (.binary .minus (letter 'x') (digit '2')))

/-- An equation that holds everywhere is reported refuted: two conditions are assumed to be
zero that are never zero together. -/
theorem refuted_disjointRoots :
    ∃ text c residue, (equation disjointRoots (digit '0')).Renders text ∧
      (prove 16 text).outcome = .refuted c residue ∧ ¬ FailsIn disjointRoots (digit '0') c := by
  have hrenders := renders_write (equation disjointRoots (digit '0'))
  have hdecide : (disjointRoots.form.sub (form (digit '0'))).decide 16
      = .ok (.refuted ⟨[("x", .nonzero)]⟩ .one) := by decide +kernel
  refine ⟨_, ⟨[("x", .nonzero)]⟩, Form.one.render, hrenders, ?_, ?_⟩
  · rw [outcome_of_renders hrenders, hdecide]
    rfl
  · rintro ⟨K, hfield, hclosed, hchar, v, -, hne⟩
    refine hne ?_
    have hone : (digit '1').value v = 1 := (value_digit v '1' rfl).trans Nat.cast_one
    have htwo : (digit '2').value v = 2 := (value_digit v '2' rfl).trans Nat.cast_two
    have hzero : (digit '0').value v = 0 := (value_digit v '0' rfl).trans Nat.cast_zero
    change ((digit '1').value v - (v "x" - (digit '1').value v) / (v "x" - (digit '1').value v))
      * ((digit '1').value v - (v "x" - (digit '2').value v) / (v "x" - (digit '2').value v))
      = (digit '0').value v
    rw [hone, htwo, hzero]
    by_cases hx : v "x" = 1
    · have htwo' : v "x" - 2 ≠ 0 := by
        rw [hx]
        norm_num
      rw [div_self htwo', sub_self, mul_zero]
    · rw [div_self (sub_ne_zero.2 hx), sub_self, zero_mul]

end Meadow
