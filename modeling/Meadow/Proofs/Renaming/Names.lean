import Mathlib
import Meadow.Proofs.Form.Variables
import Meadow.Proofs.Renaming.Form

set_option autoImplicit false

/-!
# Names matter by their order only

A renaming need only keep the order of the variables that occur.  It cannot always be extended
to one that keeps the order of all names, because there may be no name left between two others;
but the variables before and after it have the same *standard names*, and giving standard names
does keep the order of all names (`strictMono_standardName`).  So both sides of
`names_immaterial` are compared after they have been given standard names.
-/

namespace Meadow

/-! ## Standard names -/

/-- The characters of a standard name: `b` for each of the listed names up to this one, and
behind them, if it is not listed, `a` and the name itself. -/
def standardChars : List String → String → List Char
  | [], x => 'a' :: x.toList
  | v :: vs, x =>
    if x < v then 'a' :: x.toList else 'b' :: (if x = v then [] else standardChars vs x)

/-- Names that leave room for others between them: the listed names, in increasing order,
become `b`, `bb` and so on, and any other name finds its place between these. -/
def standardName (vs : List String) (x : String) : String := .ofList (standardChars vs x)

theorem standardChars_ne_nil (vs : List String) (x : String) : standardChars vs x ≠ [] := by
  cases vs with
  | nil => exact List.cons_ne_nil _ _
  | cons v vs =>
    rw [standardChars]
    split <;> exact List.cons_ne_nil _ _

theorem standardChars_lt (vs : List String) {x y : String} (h : x < y) :
    standardChars vs x < standardChars vs y := by
  have hsame : 'a' :: x.toList < 'a' :: y.toList :=
    List.cons_lt_cons_iff.2 (Or.inr ⟨rfl, String.lt_iff_toList_lt.1 h⟩)
  induction vs with
  | nil => exact hsame
  | cons v vs ih =>
    rw [standardChars, standardChars]
    by_cases hy : y < v
    · rw [if_pos hy, if_pos (h.trans hy)]
      exact hsame
    · rw [if_neg hy]
      split
      · exact List.cons_lt_cons_iff.2 (Or.inl (by decide))
      · next hx =>
        have hlt : v < y := (not_lt.1 hx).trans_lt h
        rw [if_neg hlt.ne']
        refine List.cons_lt_cons_iff.2 (Or.inr ⟨rfl, ?_⟩)
        split
        · obtain ⟨c, cs, hcs⟩ := List.exists_cons_of_ne_nil (standardChars_ne_nil vs y)
          rw [hcs]
          exact List.nil_lt_cons c cs
        · exact ih

theorem strictMono_standardName (vs : List String) : StrictMono (standardName vs) := by
  intro x y h
  rw [String.lt_iff_toList_lt, standardName, standardName, String.toList_ofList,
    String.toList_ofList]
  exact standardChars_lt vs h

/-- Standard names only count the listed names. -/
theorem standardName_map {σ : String → String} {vs : List String} (hvs : vs.Pairwise (· < ·))
    (hσ : StrictMonoOn σ {v | v ∈ vs}) {x : String} (hx : x ∈ vs) :
    standardName (vs.map σ) (σ x) = standardName vs x := by
  refine congrArg String.ofList ?_
  induction vs with
  | nil => cases hx
  | cons v vs ih =>
    obtain ⟨hv, hvs⟩ := List.pairwise_cons.1 hvs
    rw [List.map_cons, standardChars, standardChars]
    rcases List.mem_cons.1 hx with rfl | hx
    · rw [if_neg (lt_irrefl _), if_neg (lt_irrefl _), if_pos rfl, if_pos rfl]
    · have hlt := hv x hx
      have hlt' : σ v < σ x := hσ List.mem_cons_self (List.mem_cons_of_mem v hx) hlt
      rw [if_neg hlt.not_gt, if_neg hlt'.not_gt, if_neg hlt.ne', if_neg hlt'.ne',
        ih hvs (hσ.mono fun w hw => List.mem_cons_of_mem v hw) hx]

theorem FinSupp.pairwise_keys {V : Type} {zero : V} (f : FinSupp String V compare zero) :
    f.keys.Pairwise (· < ·) :=
  List.pairwise_map.2 (f.sorted.imp compare_string_lt_iff.1)

variable {σ τ : String → String}

/-- Variables that keep their order under a renaming have the same standard names before and
after it. -/
theorem exists_standardNames {vs : List String} (hvs : vs.Pairwise (· < ·))
    (hσ : StrictMonoOn σ {v | v ∈ vs}) :
    ∃ τ ρ : String → String, StrictMono τ ∧ StrictMono ρ ∧ ∀ v ∈ vs, τ (σ v) = ρ v :=
  ⟨_, _, strictMono_standardName _, strictMono_standardName vs,
    fun _ hv => standardName_map hvs hσ hv⟩

/-! ## What renaming depends on -/

theorem Poly.mem_vars_of_mem_factorize {p : Poly} {f : Poly × ℕ} (hf : f ∈ p.factorize.factors)
    {x : String} (hx : x ∈ f.1.vars) : x ∈ p.vars := by
  refine Poly.Over.iff_vars.1 ?_ x hx
  cases hp : p.constantValue? with
  | some c =>
    rw [factorize, hp] at hf
    cases hf
  | none =>
    have hconst := constantValue?_eq_none_iff.1 hp
    exact (over_vars p).of_dvd (ne_zero_of_not_isConstant hconst) (dvd_of_mem_factorize hconst hf)

theorem Factorization.rename_injective (hσ : Function.Injective σ) :
    Function.Injective (Factorization.rename σ) := by
  have hfactor : Function.Injective fun f : Poly × ℕ => (f.1.rename σ, f.2) :=
    (Poly.rename_injective hσ).prodMap Function.injective_id
  intro f g h
  obtain ⟨hconstant, hfactors⟩ := Factorization.mk.inj h
  exact congrArg₂ Factorization.mk hconstant (List.map_injective_iff.2 hfactor hfactors)

namespace Form

/-- Only what becomes of the variables that occur matters. -/
theorem rename_congr {f : Form} (h : ∀ v ∈ f.vars, σ v = τ v) : f.rename σ = f.rename τ := by
  induction f with
  | poly p => exact congrArg poly (Poly.rename_congr fun v hv => h v (mem_vars_poly.2 hv))
  | frac n d =>
    simp only [mem_vars_frac, or_imp, forall_and] at h
    exact congrArg₂ frac (Poly.rename_congr h.1) (Poly.rename_congr h.2)
  | cond c t e iht ihe =>
    simp only [mem_vars_cond, or_imp, forall_and] at h
    rw [rename, rename, Poly.rename_congr h.1, iht h.2.1, ihe h.2.2]

theorem rename_rename (σ τ : String → String) (f : Form) :
    (f.rename σ).rename τ = f.rename (τ ∘ σ) := by
  induction f with
  | poly p => exact congrArg poly (p.rename_rename σ τ)
  | frac n d => exact congrArg₂ frac (n.rename_rename σ τ) (d.rename_rename σ τ)
  | cond c t e iht ihe =>
    rw [rename, rename, rename, iht, ihe, Poly.rename_rename]

end Form

theorem except_map_injective {ε α β : Type} {F : α → β} (hF : Function.Injective F) :
    Function.Injective (Except.map F : Except ε α → Except ε β) := by
  intro x y h
  cases x with
  | error e =>
    cases y with
    | error e' => exact congrArg Except.error (Except.error.inj h)
    | ok b => cases h
  | ok a =>
    cases y with
    | error e' => cases h
    | ok b => exact congrArg Except.ok (hF (Except.ok.inj h))

namespace Decision

theorem rename_injective (hσ : Function.Injective σ) : Function.Injective (Decision.rename σ) := by
  have hcase : Function.Injective fun v : String × VariableCase => (σ v.1, v.2) :=
    hσ.prodMap Function.injective_id
  intro d d' h
  cases d with
  | proven =>
    cases d' with
    | proven => rfl
    | refuted c' residue' => cases h
  | refuted c residue =>
    cases d' with
    | proven => cases h
    | refuted c' residue' =>
      obtain ⟨hc, hresidue⟩ := Decision.refuted.inj h
      have hcases := List.map_injective_iff.2 hcase (Case.mk.inj hc)
      exact congrArg₂ refuted (congrArg Case.mk hcases) (Form.rename_injective hσ hresidue)

/-- A counterexample and what is left in it only have variables of the form. -/
theorem rename_rename_of_decide {ρ : String → String} {f : Form} {limit : ℕ} {d : Decision}
    (hd : f.decide limit = .ok d) (h : ∀ v ∈ f.vars, τ (σ v) = ρ v) :
    (d.rename σ).rename τ = d.rename ρ := by
  cases d with
  | proven => rfl
  | refuted c residue =>
    obtain ⟨⟨n, rfl⟩, rfl, -⟩ := Form.eval_of_refuted hd
    refine congrArg₂ Decision.refuted (congrArg Case.mk ?_) ?_
    · refine (List.map_map ..).trans (List.map_congr_left fun v hv => ?_)
      have hmem : v.1 ∈ f.vars := by
        rw [← Case.map_fst_ofNumber f.vars n]
        exact List.mem_map_of_mem hv
      exact congrArg (·, v.2) (h v.1 hmem)
    · rw [Form.rename_rename]
      exact Form.rename_congr fun v hv => h v (Form.mem_vars_of_mem_vars_eval hv).1

end Decision

/-! ## Renamings that keep the order of the variables -/

theorem Poly.factorize_rename_of_strictMonoOn {p : Poly} (hσ : StrictMonoOn σ {v | v ∈ p.vars}) :
    (p.rename σ).factorize = p.factorize.rename σ := by
  obtain ⟨τ, ρ, hτ, hρ, hnames⟩ := exists_standardNames (FinSupp.pairwise_keys _) hσ
  have hrename {q : Poly} (hq : ∀ v ∈ q.vars, v ∈ p.vars) : (q.rename σ).rename τ = q.rename ρ := by
    rw [rename_rename]
    exact rename_congr fun v hv => hnames v (hq v hv)
  have hfactors : (p.factorize.rename σ).rename τ = p.factorize.rename ρ := by
    refine congrArg (Factorization.mk _) ((List.map_map ..).trans ?_)
    refine List.map_congr_left fun f hf => congrArg (·, f.2) ?_
    exact hrename fun v hv => mem_vars_of_mem_factorize hf hv
  apply Factorization.rename_injective hτ.injective
  rw [← factorize_rename hτ, hrename fun v hv => hv, hfactors, factorize_rename hρ]

theorem Form.decide_rename_of_strictMonoOn {f : Form} (limit : ℕ)
    (hσ : StrictMonoOn σ {v | v ∈ f.vars}) :
    (f.rename σ).decide limit = (f.decide limit).map (Decision.rename σ) := by
  obtain ⟨τ, ρ, hτ, hρ, hnames⟩ := exists_standardNames (FinSupp.pairwise_keys _) hσ
  have hform : (f.rename σ).rename τ = f.rename ρ := by
    rw [rename_rename]
    exact rename_congr hnames
  apply except_map_injective (Decision.rename_injective hτ.injective)
  rw [← decide_rename hτ, hform, decide_rename hρ]
  cases hf : f.decide limit with
  | error e => rfl
  | ok d => exact congrArg Except.ok (Decision.rename_rename_of_decide hf hnames).symm

/-- Only the order of the names matters.  If a renaming keeps the order of the variables of a
polynomial, the renamed polynomial has the renamed factorization: the same constant, and the
renamed factors in the same order and with the same multiplicities.  If it keeps the order of
the variables of a form, the renamed form is decided alike, with the renamed counterexample. -/
theorem names_immaterial (σ : String → String) :
    (∀ p : Poly, StrictMonoOn σ {v | v ∈ p.vars} →
      (p.rename σ).factorize = p.factorize.rename σ) ∧
    ∀ (f : Form) (limit : ℕ), StrictMonoOn σ {v | v ∈ f.vars} →
      (f.rename σ).decide limit = (f.decide limit).map (Decision.rename σ) :=
  ⟨fun _ => Poly.factorize_rename_of_strictMonoOn,
    fun _ limit => Form.decide_rename_of_strictMonoOn limit⟩

/-- Both to the name of the image variable and away from it: with `t` and `u` for `s` and `t`,
`s ^ 2 - t ^ 3` is left whole, and is refuted where `u` is zero and `t` is not. -/
theorem names_immaterial_imageVar :
    let σ : String → String := fun v => if v = "s" then "t" else "u"
    let p := ((Poly.var "s").pow 2).sub ((Poly.var "t").pow 3)
    let q := ((Poly.var "t").pow 2).sub ((Poly.var "u").pow 3)
    p.rename σ = q ∧ q.factorize = ⟨1, [(q, 1)]⟩ ∧
      (Form.poly q).decide 2
        = .ok (.refuted ⟨[("t", .nonzero), ("u", .zero)]⟩ (.poly ((Poly.var "t").pow 2))) := by
  intro σ p q
  have hσ : ∀ v ∈ ["s", "t"], ∀ w ∈ ["s", "t"], v < w → σ v < σ w := by decide
  have hp : p.vars = ["s", "t"] := by decide +kernel
  have hf : (Form.poly p).vars = ["s", "t"] := by decide +kernel
  have hq : p.rename σ = q := by decide +kernel
  have hfactorize : p.factorize = ⟨1, [(p, 1)]⟩ := by decide +kernel
  have hdecide : (Form.poly p).decide 2
      = .ok (.refuted ⟨[("s", .nonzero), ("t", .zero)]⟩ (.poly ((Poly.var "s").pow 2))) := by
    decide +kernel
  obtain ⟨hpoly, hform⟩ := names_immaterial σ
  have hfactorize' := hpoly p fun v hv w hw => hσ v (hp ▸ hv) w (hp ▸ hw)
  have hdecide' := hform (.poly p) 2 fun v hv w hw => hσ v (hf ▸ hv) w (hf ▸ hw)
  rw [hfactorize, hq] at hfactorize'
  rw [hdecide, Form.rename, hq] at hdecide'
  refine ⟨hq, hfactorize'.trans ?_, hdecide'.trans ?_⟩
  · rw [Factorization.rename, List.map_singleton, hq]
  · decide +kernel

end Meadow
