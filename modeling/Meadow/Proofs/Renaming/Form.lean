import Mathlib
import Meadow.Proofs.CaseSplit
import Meadow.Proofs.Renaming.Factor

set_option autoImplicit false

/-!
# Deciding a renamed form

Sets of polynomials and of names are kept sorted, so that a renaming that keeps the order maps
the lists of their members (`FinSet.toList_map`).  Whatever an evaluation tests under renamed
assumptions has the answer that it had before, and so the renamed form evaluates to the renamed
result (`Form.eval_rename`).  The variables of a form are listed by their names, so its cases
have the same numbers, and the first one that leaves something is the same
(`Form.decide_rename`).
-/

namespace Meadow

variable {σ : String → String}

/-! ## Sets -/

namespace FinSet

variable {K : Type} {cmp : K → K → Ordering} [Std.TransCmp cmp] [Std.LawfulEqCmp cmp]

/-- The set of what a function makes of the members. -/
def map (h : K → K) (s : FinSet K cmp) : FinSet K cmp := .ofList (s.toList.map h)

variable [DecidableEq K] {h : K → K}

theorem contains_map {s : FinSet K cmp} {l : K} :
    (map h s).contains l = true ↔ ∃ k, s.contains k = true ∧ h k = l := by
  simp only [map, contains_ofList, List.mem_map, mem_toList_iff]

theorem contains_map_apply (hh : Function.Injective h) (s : FinSet K cmp) (k : K) :
    (map h s).contains (h k) = s.contains k := by
  rw [Bool.eq_iff_iff, contains_map]
  constructor
  · rintro ⟨l, hl, heq⟩
    rwa [← hh heq]
  · exact fun hk => ⟨k, hk, rfl⟩

theorem map_ofList (ks : List K) : map h (ofList ks : FinSet K cmp) = ofList (ks.map h) :=
  ext_contains fun l => by simp only [contains_map, contains_ofList, List.mem_map]

theorem map_union (s t : FinSet K cmp) : map h (union s t) = union (map h s) (map h t) :=
  ext_contains fun l => by
    simp only [contains_map, contains_union, Bool.or_eq_true, or_and_right, exists_or]

theorem map_insert (k : K) (s : FinSet K cmp) : map h (insert k s) = insert (h k) (map h s) :=
  ext_contains fun l => by
    simp only [contains_map, contains_insert, Bool.or_eq_true, decide_eq_true_eq, or_and_right,
      exists_or, exists_eq_left']

theorem map_insertAll (ks : List K) (s : FinSet K cmp) :
    map h (insertAll ks s) = insertAll (ks.map h) (map h s) := by
  induction ks with
  | nil => rfl
  | cons k ks ih => exact (map_insert k _).trans (congrArg (insert (h k)) ih)

/-- A function that keeps the order keeps the members in their order. -/
theorem toList_map (mono : ∀ k l, cmp k l = .lt → cmp (h k) (h l) = .lt) (s : FinSet K cmp) :
    (map h s).toList = s.toList.map h := by
  have hkeys : toList (s.mapKeys h mono) = s.toList.map h := by
    rw [toList, FinSupp.keys, toList, FinSupp.keys, List.map_map]
    exact List.map_map
  have hmap : map h s = s.mapKeys h mono :=
    ext_contains fun l => by rw [map, contains_ofList, ← mem_toList_iff, hkeys]
  rw [hmap, hkeys]

end FinSet

/-! ## Assumptions -/

namespace Assumptions

/-- The assumptions with their variables renamed. -/
def rename (σ : String → String) (a : Assumptions) : Assumptions :=
  ⟨a.zeros.map (Poly.rename σ), a.nonzeros.map (Poly.rename σ)⟩

theorem rename_withZero (σ : String → String) (a : Assumptions) (p : Poly) :
    (a.withZero p).rename σ = (a.rename σ).withZero (p.rename σ) :=
  congrArg (Assumptions.mk · _) (FinSet.map_insert p a.zeros)

theorem rename_withNonzeros (σ : String → String) (a : Assumptions) (ps : List Poly) :
    (a.withNonzeros ps).rename σ = (a.rename σ).withNonzeros (ps.map (Poly.rename σ)) :=
  congrArg (Assumptions.mk _) (FinSet.map_insertAll ps a.nonzeros)

theorem rename_ofVars (σ : String → String) (zero nonzero : List String) :
    (ofVars zero nonzero).rename σ = ofVars (zero.map σ) (nonzero.map σ) := by
  have hvars (xs : List String) : FinSet.map (Poly.rename σ) (.ofList (xs.map Poly.var) : PolySet)
      = .ofList ((xs.map σ).map Poly.var) := by
    rw [FinSet.map_ofList, List.map_map, List.map_map]
    exact congrArg FinSet.ofList (List.map_congr_left fun x _ => Poly.rename_var σ x)
  exact congrArg₂ Assumptions.mk (hvars zero) (hvars nonzero)

theorem contains_zeros_rename (hσ : Function.Injective σ) (a : Assumptions) (p : Poly) :
    (a.rename σ).zeros.contains (p.rename σ) = a.zeros.contains p :=
  FinSet.contains_map_apply (Poly.rename_injective hσ) a.zeros p

theorem contains_nonzeros_rename (hσ : Function.Injective σ) (a : Assumptions) (p : Poly) :
    (a.rename σ).nonzeros.contains (p.rename σ) = a.nonzeros.contains p :=
  FinSet.contains_map_apply (Poly.rename_injective hσ) a.nonzeros p

theorem any_zeros_rename (hσ : Function.Injective σ) (a : Assumptions) (rs : List Poly) :
    (rs.map (Poly.rename σ)).any (a.rename σ).zeros.contains = rs.any a.zeros.contains := by
  rw [List.any_map]
  exact congrArg rs.any (funext (contains_zeros_rename hσ a))

theorem all_nonzeros_rename (hσ : Function.Injective σ) (a : Assumptions) (rs : List Poly) :
    (rs.map (Poly.rename σ)).all (a.rename σ).nonzeros.contains = rs.all a.nonzeros.contains := by
  rw [List.all_map]
  exact congrArg rs.all (funext (contains_nonzeros_rename hσ a))

/-- The roots that the assumptions leave open are renamed. -/
theorem filter_nonzeros_rename (hσ : Function.Injective σ) (a : Assumptions) (rs : List Poly) :
    ((rs.map (Poly.rename σ)).filter fun r => !(a.rename σ).nonzeros.contains r)
      = (rs.filter fun r => !a.nonzeros.contains r).map (Poly.rename σ) :=
  filter_map_of_eq (P := fun r => !(a.rename σ).nonzeros.contains r)
    (fun r => congrArg (!·) (contains_nonzeros_rename hσ a r)) rs

variable (hσ : StrictMono σ)

include hσ

theorem toList_zeros_rename (a : Assumptions) :
    (a.rename σ).zeros.toList = a.zeros.toList.map (Poly.rename σ) :=
  FinSet.toList_map (fun p q h => (Poly.cmp_rename hσ p q).trans h) a.zeros

theorem zeroVars_rename (a : Assumptions) : (a.rename σ).zeroVars = a.zeroVars.map σ := by
  rw [zeroVars, zeroVars, toList_zeros_rename hσ, List.filterMap_map, List.map_filterMap]
  exact List.filterMap_congr fun p _ => Poly.asVariable?_rename hσ p

theorem substituteZeros_rename (p : Poly) (vs : List String) :
    (p.rename σ).substituteZeros (vs.map σ) = (p.substituteZeros vs).rename σ := by
  induction vs generalizing p with
  | nil => rfl
  | cons v vs ih =>
    rw [List.map_cons, Poly.substituteZeros_cons, Poly.substituteZero_rename hσ, ih,
      Poly.substituteZeros_cons]

theorem zeroDivisors_rename (a : Assumptions) :
    (a.rename σ).zeroDivisors = a.zeroDivisors.map (Poly.rename σ) := by
  have hvariable (p : Poly) : (p.rename σ).asVariable?.isNone = p.asVariable?.isNone := by
    rw [Poly.asVariable?_rename hσ, Option.isNone_map]
  have hconstant (p : Poly) : (!(p.rename σ).isConstant) = !p.isConstant := by
    rw [Poly.isConstant_rename hσ]
  rw [zeroDivisors, zeroDivisors, toList_zeros_rename hσ, zeroVars_rename hσ,
    filter_map_of_eq (P := fun p : Poly => p.asVariable?.isNone) hvariable,
    ← filter_map_of_eq (P := fun p : Poly => !p.isConstant) hconstant, List.map_map, List.map_map]
  refine congrArg (List.filter _) (List.map_congr_left fun p _ => ?_)
  exact substituteZeros_rename hσ p a.zeroVars

theorem evalFactors_rename (a : Assumptions) (divisors : List Poly) (acc : Poly)
    (fs : List Poly) :
    (a.rename σ).evalFactors (divisors.map (Poly.rename σ)) (acc.rename σ)
        (fs.map (Poly.rename σ)) = (a.evalFactors divisors acc fs).rename σ := by
  induction fs generalizing acc with
  | nil => rfl
  | cons f fs ih =>
    have hdivides (g : Poly) : (divisors.map (Poly.rename σ)).any
        (fun d => ((g.rename σ).divExact? d).isSome)
          = divisors.any fun d => (g.divExact? d).isSome := by
      rw [List.any_map]
      refine congrArg divisors.any (funext fun d => ?_)
      rw [Function.comp_apply, Poly.divExact?_rename hσ, Option.isSome_map]
    rw [List.map_cons, evalFactors, evalFactors, contains_nonzeros_rename hσ.injective,
      zeroVars_rename hσ, substituteZeros_rename hσ]
    dsimp only
    rw [Poly.isZero_rename hσ, hdivides]
    split
    · exact ih acc
    · split
      · rfl
      · rw [Poly.mul_def, Poly.mul_def, ← Poly.rename_mul, ih]

theorem evalPoly_rename (a : Assumptions) (p : Poly) :
    (a.rename σ).evalPoly (p.rename σ) = (a.evalPoly p).rename σ := by
  have hone : Poly.one.rename σ = Poly.one := rfl
  rw [evalPoly, evalPoly, Poly.isConstant_rename hσ, zeroDivisors_rename hσ,
    Poly.factors_rename hσ, ← hone, evalFactors_rename hσ, hone]
  split <;> rfl

end Assumptions

/-! ## Forms -/

namespace Form

/-- The form with its variables renamed. -/
def rename (σ : String → String) : Form → Form
  | poly p => poly (p.rename σ)
  | frac n d => frac (n.rename σ) (d.rename σ)
  | cond c t e => cond (c.rename σ) (t.rename σ) (e.rename σ)

theorem rename_injective (hσ : Function.Injective σ) : Function.Injective (rename σ) := by
  have hpoly := Poly.rename_injective hσ
  intro f g h
  induction f generalizing g with
  | poly p =>
    cases g with
    | poly q => exact congrArg poly (hpoly (poly.inj h))
    | frac n d => cases h
    | cond c t e => cases h
  | frac n d =>
    cases g with
    | poly q => cases h
    | frac n' d' =>
      obtain ⟨hn, hd⟩ := frac.inj h
      rw [hpoly hn, hpoly hd]
    | cond c t e => cases h
  | cond c t e iht ihe =>
    cases g with
    | poly q => cases h
    | frac n d => cases h
    | cond c' t' e' =>
      obtain ⟨hc, ht, he⟩ := cond.inj h
      rw [hpoly hc, iht ht, ihe he]

theorem varSet_rename (hσ : StrictMono σ) (f : Form) :
    (f.rename σ).varSet = f.varSet.map σ := by
  induction f with
  | poly p => rw [rename, varSet, varSet, Poly.vars_rename hσ, FinSet.map_ofList]
  | frac n d =>
    rw [rename, varSet, varSet, Poly.vars_rename hσ, Poly.vars_rename hσ, FinSet.map_union,
      FinSet.map_ofList, FinSet.map_ofList]
  | cond c t e iht ihe =>
    rw [rename, varSet, varSet, Poly.vars_rename hσ, iht, ihe, FinSet.map_union,
      FinSet.map_union, FinSet.map_ofList]

theorem vars_rename (hσ : StrictMono σ) (f : Form) : (f.rename σ).vars = f.vars.map σ := by
  rw [vars, varSet_rename hσ, FinSet.toList_map (compare_rename_lt hσ), vars]

theorem underNonzero_rename (hσ : Function.Injective σ) (c : Poly) (t : Form) :
    underNonzero (c.rename σ) (t.rename σ) = (underNonzero c t).rename σ := by
  cases t with
  | poly p => rfl
  | frac n d => rfl
  | cond c' t e =>
    simp only [rename, underNonzero, (Poly.rename_injective hσ).eq_iff]
    split <;> rfl

theorem underZero_rename (hσ : Function.Injective σ) (c : Poly) (e : Form) :
    underZero (c.rename σ) (e.rename σ) = (underZero c e).rename σ := by
  cases e with
  | poly p =>
    simp only [rename, underZero, (Poly.rename_injective hσ).eq_iff]
    split <;> rfl
  | frac n d =>
    simp only [rename, underZero, (Poly.rename_injective hσ).eq_iff]
    split <;> rfl
  | cond c' t e =>
    simp only [rename, underZero, (Poly.rename_injective hσ).eq_iff]
    split <;> rfl

variable (hσ : StrictMono σ)

include hσ

theorem isZero_rename (f : Form) : (f.rename σ).isZero = f.isZero := by
  cases f with
  | poly p => exact Poly.isZero_rename hσ p
  | frac n d => rfl
  | cond c t e => rfl

theorem branch_rename (c : Poly) (t e : Form) :
    branch (c.rename σ) (t.rename σ) (e.rename σ) = (branch c t e).rename σ := by
  rw [branch, branch, Poly.radical_rename hσ, underNonzero_rename hσ.injective,
    underZero_rename hσ.injective, Poly.isZero_rename hσ, Poly.isConstant_rename hσ]
  simp only [(rename_injective hσ.injective).eq_iff]
  split
  · rfl
  · split
    · rfl
    · split <;> rfl

/-- The first form that is not zero is renamed. -/
theorem findSome?_getD_rename {f g : Poly → Form} (h : ∀ r, f (r.rename σ) = (g r).rename σ)
    (rs : List Poly) :
    ((rs.map (Poly.rename σ)).findSome? fun r =>
        if (f r).isZero then none else some (f r)).getD zero
      = ((rs.findSome? fun r => if (g r).isZero then none else some (g r)).getD zero).rename σ := by
  induction rs with
  | nil => rfl
  | cons r rs ih =>
    rw [List.map_cons, List.findSome?_cons, List.findSome?_cons, h, isZero_rename hσ]
    cases (g r).isZero with
    | true => exact ih
    | false => rfl

/-- A renamed form evaluates to the renamed result. -/
theorem eval_rename (f : Form) (a : Assumptions) :
    (f.rename σ).eval (a.rename σ) = (f.eval a).rename σ := by
  induction f generalizing a with
  | poly p => exact congrArg poly (Assumptions.evalPoly_rename hσ a p)
  | frac n d =>
    rw [rename, eval, eval, mul_poly_poly, mul_poly_poly, Assumptions.evalPoly_rename hσ,
      Assumptions.evalPoly_rename hσ, ← Poly.rename_mul]
    rfl
  | cond c t e iht ihe =>
    have hfirst := findSome?_getD_rename hσ
      (f := fun r => (e.rename σ).eval ((a.rename σ).withZero r))
      (g := fun r => e.eval (a.withZero r)) fun r => by rw [← Assumptions.rename_withZero, ihe]
    rw [rename, eval, eval, Assumptions.evalPoly_rename hσ, Poly.factors_rename hσ]
    dsimp only
    rw [Assumptions.any_zeros_rename hσ.injective, Assumptions.all_nonzeros_rename hσ.injective,
      Assumptions.filter_nonzeros_rename hσ.injective, hfirst, ← Assumptions.rename_withNonzeros,
      iht, ihe, branch_rename hσ, isZero_rename hσ, Poly.isZero_rename hσ,
      Poly.isConstant_rename hσ]
    split
    · rfl
    · split
      · rfl
      · split <;> rfl

end Form

/-! ## Cases -/

namespace Case

/-- The case with its variables renamed. -/
def rename (σ : String → String) (c : Case) : Case := ⟨c.cases.map fun v => (σ v.1, v.2)⟩

theorem ofNumber_map (σ : String → String) (vars : List String) (n : ℕ) :
    ofNumber (vars.map σ) n = (ofNumber vars n).rename σ := by
  rw [ofNumber, ofNumber, rename, List.zipIdx_map, List.map_map, List.map_map]
  rfl

theorem assumptions_rename (σ : String → String) (c : Case) :
    (c.rename σ).assumptions = c.assumptions.rename σ := by
  have hvars (assumed : VariableCase) :
      (c.rename σ).varsWith assumed = (c.varsWith assumed).map σ := by
    rw [varsWith, varsWith, rename, filter_map_of_eq fun _ => rfl, List.map_map, List.map_map]
    rfl
  rw [assumptions, assumptions, hvars, hvars, Assumptions.rename_ofVars]

end Case

/-- The decision with the variables of a counterexample renamed. -/
def Decision.rename (σ : String → String) : Decision → Decision
  | .proven => .proven
  | .refuted c residue => .refuted (c.rename σ) (residue.rename σ)

namespace Form

variable (hσ : StrictMono σ)

include hσ

theorem decideFrom_rename (f : Form) (vars : List String) (remaining n : ℕ) :
    (f.rename σ).decideFrom (vars.map σ) remaining n
      = (f.decideFrom vars remaining n).rename σ := by
  induction remaining generalizing n with
  | zero => rfl
  | succ remaining ih =>
    rw [decideFrom, decideFrom, Case.ofNumber_map, Case.assumptions_rename, eval_rename hσ,
      isZero_rename hσ]
    split
    · exact ih (n + 1)
    · rfl

/-- A renamed form is decided alike, with the renamed counterexample. -/
theorem decide_rename (f : Form) (limit : ℕ) :
    (f.rename σ).decide limit = (f.decide limit).map (Decision.rename σ) := by
  rw [decide, decide, vars_rename hσ, List.length_map]
  split
  · rfl
  · rw [decideFrom_rename hσ]
    rfl

end Form
end Meadow
