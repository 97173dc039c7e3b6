import Mathlib
import Meadow.CaseSplit
import Meadow.Proofs.Form.Consistency

set_option autoImplicit false

/-!
# Deciding by cases

At every valuation one of the cases says of each variable whether it is zero
(`Case.exists_fits`).  So a form that is decided to be zero everywhere is
(`Form.value_eq_zero_of_proven`), and a counterexample is a case in which something is
left (`Form.eval_of_refuted`).
-/

namespace Meadow

variable {K : Type*} [Field K] {v : String → K}

namespace Case

/-- What the case says of its variables is true at a valuation. -/
def Fits (v : String → K) (c : Case) : Prop := ∀ x ∈ c.cases, v x.1 = 0 ↔ x.2 = .zero

theorem mem_varsWith {c : Case} {a : VariableCase} {x : String} :
    x ∈ c.varsWith a ↔ (x, a) ∈ c.cases := by
  rw [varsWith, List.mem_map]
  constructor
  · rintro ⟨⟨y, b⟩, hy, rfl⟩
    rw [List.mem_filter, decide_eq_true_eq] at hy
    obtain ⟨hmem, rfl⟩ := hy
    exact hmem
  · intro h
    exact ⟨(x, a), List.mem_filter.2 ⟨h, by simp⟩, rfl⟩

/-- A case lists its variables in their order. -/
theorem map_fst_ofNumber (vars : List String) (n : ℕ) :
    (ofNumber vars n).cases.map Prod.fst = vars := by
  rw [ofNumber, List.map_map]
  exact List.zipIdx_map_fst 0 vars

theorem contains_ofList_map_var {xs : List String} {p : Poly} :
    FinSet.contains (.ofList (xs.map Poly.var) : PolySet) p = true ↔ ∃ x ∈ xs, Poly.var x = p := by
  rw [FinSet.contains_ofList, List.mem_map]

theorem contains_zeros {c : Case} {p : Poly} : c.assumptions.zeros.contains p = true ↔
    ∃ x, (x, VariableCase.zero) ∈ c.cases ∧ Poly.var x = p := by
  rw [assumptions, Assumptions.ofVars, contains_ofList_map_var]
  simp only [mem_varsWith]

theorem contains_nonzeros {c : Case} {p : Poly} : c.assumptions.nonzeros.contains p = true ↔
    ∃ x, (x, VariableCase.nonzero) ∈ c.cases ∧ Poly.var x = p := by
  rw [assumptions, Assumptions.ofVars, contains_ofList_map_var]
  simp only [mem_varsWith]

/-- The assumptions of a case hold where it fits. -/
theorem holds_assumptions_iff [CharZero K] {c : Case} : c.assumptions.Holds v ↔ c.Fits v := by
  constructor
  · rintro h ⟨x, a⟩ hx
    cases a with
    | zero =>
      have hvalue := h.zeros _ (contains_zeros.2 ⟨x, hx, rfl⟩)
      rw [Poly.value_var] at hvalue
      exact iff_of_true hvalue rfl
    | nonzero =>
      have hvalue := h.nonzeros _ (contains_nonzeros.2 ⟨x, hx, rfl⟩)
      rw [Poly.value_var] at hvalue
      exact iff_of_false hvalue (by simp)
  · intro h
    refine ⟨fun p hp => ?_, fun p hp => ?_⟩
    · obtain ⟨x, hx, rfl⟩ := contains_zeros.1 hp
      rw [Poly.value_var]
      exact (h _ hx).2 rfl
    · obtain ⟨x, hx, rfl⟩ := contains_nonzeros.1 hp
      rw [Poly.value_var]
      exact fun h0 => absurd ((h _ hx).1 h0) (by simp)

open Classical in
/-- At every valuation one of the cases fits. -/
theorem exists_fits (v : String → K) (vars : List String) :
    ∃ n < 2 ^ vars.length, (ofNumber vars n).Fits v := by
  refine ⟨Nat.ofBits fun i : Fin vars.length => decide (v vars[i] ≠ 0),
    Nat.ofBits_lt_two_pow _, fun x hx => ?_⟩
  obtain ⟨⟨y, i⟩, hy, rfl⟩ := List.mem_map.1 hx
  obtain ⟨hi, hyi⟩ := List.getElem?_eq_some_iff.1 (List.mem_zipIdx_iff_getElem?.1 hy)
  dsimp only
  rw [Nat.testBit_ofBits_lt _ i hi]
  by_cases h0 : v y = 0
  · simp [hyi, h0]
  · simp [hyi, h0]

/-- A case never says both of a variable. -/
theorem zero_of_mem_ofNumber {vars : List String} (hvars : vars.Nodup) {n : ℕ} {x : String}
    (hzero : (x, VariableCase.zero) ∈ (ofNumber vars n).cases) :
    (x, VariableCase.nonzero) ∉ (ofNumber vars n).cases := by
  intro hnonzero
  obtain ⟨⟨y, i⟩, hi, hyi⟩ := List.mem_map.1 hzero
  obtain ⟨⟨z, j⟩, hj, hzj⟩ := List.mem_map.1 hnonzero
  rw [Prod.mk.injEq] at hyi hzj
  obtain ⟨rfl, hbit⟩ := hyi
  obtain ⟨rfl, hbit'⟩ := hzj
  have hij : i = j := by
    obtain ⟨hi', hyi⟩ := List.getElem?_eq_some_iff.1 (List.mem_zipIdx_iff_getElem?.1 hi)
    obtain ⟨hj', hzj⟩ := List.getElem?_eq_some_iff.1 (List.mem_zipIdx_iff_getElem?.1 hj)
    exact (hvars.getElem_inj_iff).1 (hyi.trans hzj.symm)
  subst hij
  rw [hbit] at hbit'
  cases hbit'

theorem reduced_assumptions_ofNumber {vars : List String} (hvars : vars.Nodup) (n : ℕ) :
    (ofNumber vars n).assumptions.Reduced := by
  intro p hp
  obtain ⟨x, hx, rfl⟩ := contains_nonzeros.1 hp
  have hne : Poly.var x ≠ 0 := fun h0 => by
    have hdegree := Poly.degreeIn_var x x
    rw [h0, if_pos rfl] at hdegree
    cases hdegree
  refine ⟨hne, fun w hw => ?_⟩
  rw [Poly.degreeIn_var]
  split
  · next hxw =>
    subst hxw
    obtain ⟨y, hy, hxy⟩ := contains_zeros.1 (Assumptions.mem_zeroVars_iff.1 hw)
    obtain rfl := Poly.var_injective hxy
    exact absurd hx (zero_of_mem_ofNumber hvars hy)
  · rfl

end Case

namespace Form

theorem eval_of_decideFrom_proven {f : Form} {vars : List String} {remaining n : ℕ}
    (h : f.decideFrom vars remaining n = .proven) {m : ℕ} (hn : n ≤ m) (hm : m < n + remaining) :
    f.eval (Case.ofNumber vars m).assumptions = zero := by
  induction remaining generalizing n with
  | zero => omega
  | succ remaining ih =>
    rw [decideFrom] at h
    split at h
    · next hzero =>
      rcases Nat.eq_or_lt_of_le hn with rfl | hlt
      · exact isZero_iff.1 hzero
      · exact ih h hlt (by omega)
    · cases h

theorem eval_of_decideFrom_refuted {f : Form} {vars : List String} {remaining n : ℕ} {c : Case}
    {residue : Form} (h : f.decideFrom vars remaining n = .refuted c residue) :
    (∃ m, c = .ofNumber vars m) ∧ f.eval c.assumptions = residue ∧ residue ≠ zero := by
  induction remaining generalizing n with
  | zero => cases h
  | succ remaining ih =>
    rw [decideFrom] at h
    split at h
    · exact ih h
    · next hzero =>
      cases h
      exact ⟨⟨n, rfl⟩, rfl, fun h0 => hzero (isZero_iff.2 h0)⟩

/-- A form that is decided to be zero everywhere is. -/
theorem value_eq_zero_of_proven [CharZero K] {f : Form} {limit : ℕ}
    (h : f.decide limit = .ok .proven) (v : String → K) : f.value v = 0 := by
  rw [decide] at h
  split at h
  · cases h
  · obtain ⟨n, hn, hfits⟩ := Case.exists_fits v f.vars
    refine value_eq_zero_of_eval (Case.holds_assumptions_iff.2 hfits) ?_
    exact eval_of_decideFrom_proven (Except.ok.inj h) (Nat.zero_le n) (by simpa using hn)

/-- In a counterexample something is left. -/
theorem eval_of_refuted {f : Form} {limit : ℕ} {c : Case} {residue : Form}
    (h : f.decide limit = .ok (.refuted c residue)) :
    (∃ m, c = .ofNumber f.vars m) ∧ f.eval c.assumptions = residue ∧ residue ≠ zero := by
  rw [decide] at h
  split at h
  · cases h
  · exact eval_of_decideFrom_refuted (Except.ok.inj h)

end Form
end Meadow
