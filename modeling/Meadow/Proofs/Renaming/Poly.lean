import Mathlib
import Meadow.Poly.Order
import Meadow.Proofs.Poly.Construction

set_option autoImplicit false

/-!
# Renaming variables

Renaming the variables of a polynomial is a homomorphism (`Poly.renameHom`).  If the renaming
keeps the order of the names, it maps the lists that monomials and polynomials are kept as,
entry by entry (`Monomial.powers_rename`, `Poly.terms_rename`), and so whatever is read off
these lists is renamed with them.
-/

namespace Meadow

variable {σ : String → String}

/-! ## Lists -/

theorem filter_map_of_eq {α β : Type} {P : β → Bool} {Q : α → Bool} {f : α → β}
    (h : ∀ a, P (f a) = Q a) (l : List α) : (l.map f).filter P = (l.filter Q).map f := by
  rw [List.filter_map]
  exact congrArg (List.map f) (List.filter_congr fun a _ => h a)

/-- Words over two alphabets that compare alike compare alike. -/
theorem compareLex_map {α β : Type} {cmp : α → α → Ordering} {cmp' : β → β → Ordering} {f : α → β}
    (h : ∀ a b, cmp' (f a) (f b) = cmp a b) (as bs : List α) :
    List.compareLex cmp' (as.map f) (bs.map f) = List.compareLex cmp as bs := by
  induction as generalizing bs with
  | nil => cases bs <;> rfl
  | cons a as ih =>
    cases bs with
    | nil => rfl
    | cons b bs =>
      rw [List.map_cons, List.map_cons, List.compareLex_cons_cons, List.compareLex_cons_cons, h, ih]

theorem compare_rename (hσ : StrictMono σ) (v w : String) :
    compare (σ v) (σ w) = compare v w := by
  change compareOfLessAndEq _ _ = compareOfLessAndEq _ _
  simp only [compareOfLessAndEq, hσ.lt_iff_lt, hσ.injective.eq_iff]

theorem compare_rename_lt (hσ : StrictMono σ) (v w : String) (h : compare v w = .lt) :
    compare (σ v) (σ w) = .lt :=
  (compare_rename hσ v w).trans h

/-! ## Monomials -/

namespace Monomial

/-- The monomial with its variables renamed. -/
def rename (σ : String → String) (m : Monomial) : Monomial :=
  m.powers.foldr (fun w n => (power (σ w.1) w.2).mul n) one

theorem toFinsupp_rename (σ : String → String) (m : Monomial) :
    (m.rename σ).toFinsupp = m.toFinsupp.mapDomain σ := by
  have main (ws : List (String × ℕ)) :
      (ws.foldr (fun w n => (power (σ w.1) w.2).mul n) one).toFinsupp
        = (ws.map fun w => Finsupp.single (σ w.1) w.2).sum := by
    induction ws with
    | nil => exact toFinsupp_one
    | cons w ws ih =>
      rw [List.foldr_cons, List.map_cons, List.sum_cons, toFinsupp_mul, toFinsupp_power, ih]
  have hsum := prod_powers (M := Multiplicative (String →₀ ℕ))
    (fun v e => Multiplicative.ofAdd (Finsupp.single (σ v) e)) (fun v => by simp) m
  exact (main m.powers).trans hsum

theorem rename_id (m : Monomial) : m.rename id = m :=
  toFinsupp_injective (by rw [toFinsupp_rename, Finsupp.mapDomain_id])

@[simp] theorem rename_mul (σ : String → String) (m n : Monomial) :
    (m.mul n).rename σ = (m.rename σ).mul (n.rename σ) :=
  toFinsupp_injective (by simp [toFinsupp_rename, Finsupp.mapDomain_add])

@[simp] theorem rename_power (σ : String → String) (v : String) (e : ℕ) :
    (power v e).rename σ = power (σ v) e :=
  toFinsupp_injective (by simp [toFinsupp_rename, Finsupp.mapDomain_single])

theorem rename_eq_mapKeys (mono : ∀ v w, compare v w = .lt → compare (σ v) (σ w) = .lt)
    (m : Monomial) : m.rename σ = ⟨m.exponents.mapKeys σ mono⟩ := by
  refine Eq.trans ?_ (rename_id _)
  change _ = (m.powers.map fun w => (σ w.1, w.2)).foldr (fun w n => (power w.1 w.2).mul n) one
  rw [List.foldr_map]
  rfl

variable (hσ : StrictMono σ)

include hσ

/-- The powers of the renamed variables are listed in the same order. -/
theorem powers_rename (m : Monomial) :
    (m.rename σ).powers = m.powers.map fun w => (σ w.1, w.2) := by
  rw [rename_eq_mapKeys (compare_rename_lt hσ)]
  rfl

theorem vars_rename (m : Monomial) : (m.rename σ).vars = m.vars.map σ := by
  have hpowers := congrArg (List.map Prod.fst) (powers_rename hσ m)
  rw [List.map_map] at hpowers
  refine hpowers.trans ?_
  rw [vars, FinSupp.keys, List.map_map]
  rfl

theorem exponent_rename (m : Monomial) (v : String) :
    (m.rename σ).exponent (σ v) = m.exponent v := by
  rw [rename_eq_mapKeys (compare_rename_lt hσ)]
  exact FinSupp.get_mapKeys (compare_rename_lt hσ) (fun _ _ h => hσ.injective h) m.exponents v

theorem exponent_rename_of_notMem (m : Monomial) {x : String} (hx : ∀ v, σ v ≠ x) :
    (m.rename σ).exponent x = 0 := by
  rw [rename_eq_mapKeys (compare_rename_lt hσ)]
  exact FinSupp.get_mapKeys_of_notMem (compare_rename_lt hσ) m.exponents hx

/-- A monomial is a renamed one if it has its exponents and no other variable. -/
theorem eq_rename {m n : Monomial} (h : ∀ v, n.exponent (σ v) = m.exponent v)
    (hfree : ∀ x, (∀ v, σ v ≠ x) → n.exponent x = 0) : n = m.rename σ := by
  refine ext_exponent fun x => ?_
  by_cases hx : ∃ v, σ v = x
  · obtain ⟨v, rfl⟩ := hx
    rw [h, exponent_rename hσ]
  · push Not at hx
    rw [hfree x hx, exponent_rename_of_notMem hσ m hx]

theorem gcd_rename (m n : Monomial) : (m.rename σ).gcd (n.rename σ) = (m.gcd n).rename σ := by
  refine eq_rename hσ (fun v => ?_) fun x hx => ?_
  · rw [exponent_gcd, exponent_gcd, exponent_rename hσ, exponent_rename hσ]
  · rw [exponent_gcd, exponent_rename_of_notMem hσ m hx, Nat.zero_min]

theorem without_rename (m : Monomial) (v : String) :
    (m.rename σ).without (σ v) = (m.without v).rename σ := by
  refine eq_rename hσ (fun w => ?_) fun x hx => ?_
  · rw [exponent_without, exponent_without, exponent_rename hσ]
    exact if_congr hσ.injective.eq_iff rfl rfl
  · rw [exponent_without, exponent_rename_of_notMem hσ m hx, ite_self]

theorem isOne_rename (m : Monomial) : (m.rename σ).isOne = m.isOne := by
  rw [rename_eq_mapKeys (compare_rename_lt hσ)]
  exact List.isEmpty_map

theorem degree_rename (m : Monomial) : (m.rename σ).degree = m.degree := by
  rw [degree, powers_rename hσ, List.foldr_map]
  rfl

theorem divisorCount_rename (m : Monomial) : (m.rename σ).divisorCount = m.divisorCount := by
  rw [divisorCount, powers_rename hσ, List.foldr_map]
  rfl

theorem lexCmp_rename (m n : Monomial) : (m.rename σ).lexCmp (n.rename σ) = m.lexCmp n := by
  rw [lexCmp, powers_rename hσ, powers_rename hσ]
  refine compareLex_map (fun p q => ?_) m.powers n.powers
  rw [Power.lexCmp, Power.lexCmp, compare_rename hσ]

theorem cmp_rename (m n : Monomial) : (m.rename σ).cmp (n.rename σ) = m.cmp n := by
  rw [cmp, powers_rename hσ, powers_rename hσ]
  refine compareLex_map (fun p q => ?_) m.powers n.powers
  rw [Power.cmp, Power.cmp, compare_rename hσ]

end Monomial

/-! ## Polynomials -/

namespace Poly

/-- The polynomial with its variables renamed. -/
def rename (σ : String → String) (p : Poly) : Poly :=
  ofTerms (p.terms.map fun t => (t.1.rename σ, t.2))

theorem toMv_rename (σ : String → String) (p : Poly) :
    (p.rename σ).toMv = MvPolynomial.rename σ p.toMv := by
  rw [rename, toMv_ofTerms, toMv, map_list_sum, List.map_map, List.map_map]
  refine congrArg List.sum (List.map_congr_left fun t _ => ?_)
  simp [Monomial.toFinsupp_rename, MvPolynomial.rename_monomial]

/-- Renaming, as a homomorphism. -/
noncomputable def renameHom (σ : String → String) : Poly →+* Poly where
  toFun := rename σ
  map_zero' := rfl
  map_one' := rfl
  map_add' p q := toMv_injective (by simp [← add_def, toMv_rename])
  map_mul' p q := toMv_injective (by simp [← mul_def, toMv_rename])

theorem rename_mul (σ : String → String) (p q : Poly) :
    (p * q).rename σ = p.rename σ * q.rename σ := map_mul (renameHom σ) p q

theorem rename_sub (σ : String → String) (p q : Poly) :
    (p - q).rename σ = p.rename σ - q.rename σ := map_sub (renameHom σ) p q

theorem rename_monomial (σ : String → String) (m : Monomial) (c : ℚ) :
    (monomial m c).rename σ = monomial (m.rename σ) c :=
  toMv_injective (by simp [toMv_rename, Monomial.toFinsupp_rename, MvPolynomial.rename_monomial])

theorem rename_var (σ : String → String) (v : String) : (var v).rename σ = var (σ v) := by
  rw [var, rename_monomial, Monomial.rename_power]
  rfl

theorem rename_constant (σ : String → String) (c : ℚ) : (constant c).rename σ = constant c :=
  rename_monomial σ .one c

theorem rename_ofTerms (σ : String → String) (ts : List (Monomial × ℚ)) :
    (ofTerms ts).rename σ = ofTerms (ts.map fun t => (t.1.rename σ, t.2)) := by
  have hsum := map_list_sum (renameHom σ) (ts.map fun t => monomial t.1 t.2)
  rw [ofTerms_eq_sum, ofTerms_eq_sum, List.map_map]
  refine hsum.trans (congrArg List.sum ?_)
  rw [List.map_map]
  exact List.map_congr_left fun t _ => rename_monomial σ t.1 t.2

theorem rename_rename (σ τ : String → String) (p : Poly) :
    (p.rename σ).rename τ = p.rename (τ ∘ σ) :=
  toMv_injective (by simp only [toMv_rename, MvPolynomial.rename_rename])

theorem rename_id (p : Poly) : p.rename id = p :=
  toMv_injective (by rw [toMv_rename, MvPolynomial.rename_id_apply])

/-- Only what becomes of the variables that occur matters. -/
theorem rename_congr {σ τ : String → String} {p : Poly} (h : ∀ v ∈ p.vars, σ v = τ v) :
    p.rename σ = p.rename τ := by
  refine congrArg ofTerms (List.map_congr_left fun t ht => ?_)
  have hfoldr := List.foldr_ext (fun w n => (Monomial.power (σ w.1) w.2).mul n)
    (fun w n => (Monomial.power (τ w.1) w.2).mul n) .one (l := t.1.powers) fun w hw n => by
      rw [h w.1 (mem_vars_iff.2 (degreeIn_pos_of_mem_powers ht hw))]
  exact congrArg (·, t.2) hfoldr

theorem rename_injective (hσ : Function.Injective σ) : Function.Injective (rename σ) := by
  intro p q h
  have hmv := congrArg toMv h
  rw [toMv_rename, toMv_rename] at hmv
  exact toMv_injective (MvPolynomial.rename_injective σ hσ hmv)

theorem rename_eq_mapKeys
    (mono : ∀ m n : Monomial, descending Monomial.lexCmp m n = .lt →
      descending Monomial.lexCmp (m.rename σ) (n.rename σ) = .lt) (p : Poly) :
    p.rename σ = ⟨p.coeffs.mapKeys (Monomial.rename σ) mono⟩ := by
  refine Eq.trans ?_ (sum_terms _)
  rw [← ofTerms_eq_sum]
  rfl

variable (hσ : StrictMono σ)

theorem scale_rename (p : Poly) (c : ℚ) : (p.rename σ).scale c = (p.scale c).rename σ := by
  rw [scale_eq_mul, scale_eq_mul, rename_mul, rename_constant]

include hσ

theorem descending_lexCmp_rename_lt (m n : Monomial)
    (h : descending Monomial.lexCmp m n = .lt) :
    descending Monomial.lexCmp (m.rename σ) (n.rename σ) = .lt :=
  (Monomial.lexCmp_rename hσ n m).trans h

/-- The renamed terms are listed in the same order. -/
theorem terms_rename (p : Poly) :
    (p.rename σ).terms = p.terms.map fun t => (t.1.rename σ, t.2) := by
  rw [rename_eq_mapKeys (descending_lexCmp_rename_lt hσ)]
  rfl

theorem isZero_rename (p : Poly) : (p.rename σ).isZero = p.isZero := by
  rw [isZero, terms_rename hσ, List.isEmpty_map]
  rfl

theorem isConstant_rename (p : Poly) : (p.rename σ).isConstant = p.isConstant := by
  rw [isConstant, terms_rename hσ, List.all_map]
  exact congrArg p.terms.all (funext fun t => Monomial.isOne_rename hσ t.1)

theorem constantValue?_rename (p : Poly) : (p.rename σ).constantValue? = p.constantValue? := by
  have hone : (p.rename σ).coeff .one = p.coeff .one := by
    rw [rename_eq_mapKeys (descending_lexCmp_rename_lt hσ)]
    refine FinSupp.get_mapKeys (descending_lexCmp_rename_lt hσ) (fun m n h => ?_) p.coeffs .one
    rwa [← Monomial.toFinsupp_inj, Monomial.toFinsupp_rename, Monomial.toFinsupp_rename,
      (Finsupp.mapDomain_injective hσ.injective).eq_iff, Monomial.toFinsupp_inj] at h
  rw [constantValue?, constantValue?, isConstant_rename hσ, hone]

theorem isOne_rename (p : Poly) : (p.rename σ).isOne = p.isOne := by
  rw [isOne, isOne, constantValue?_rename hσ]

theorem asVariable?_rename (p : Poly) :
    (p.rename σ).asVariable? = p.asVariable?.map σ := by
  unfold asVariable?
  rw [terms_rename hσ]
  match p.terms with
  | [] => rfl
  | [(m, c)] =>
    simp only [List.map_cons, List.map_nil, Monomial.powers_rename hσ]
    match m.powers with
    | [] => rfl
    | [(_, 0)] => rfl
    | [(v, 1)] =>
      change (if c = 1 then some (σ v) else none) = Option.map σ (if c = 1 then some v else none)
      split <;> rfl
    | [(_, _ + 2)] => rfl
    | (_, 0) :: _ :: _ => rfl
    | (_, 1) :: _ :: _ => rfl
    | (_, _ + 2) :: _ :: _ => rfl
  | _ :: _ :: _ => rfl

theorem size_rename (p : Poly) : (p.rename σ).size = p.size := by
  rw [size, terms_rename hσ, List.length_map]
  rfl

theorem leadingCoeff_rename (p : Poly) : (p.rename σ).leadingCoeff = p.leadingCoeff := by
  rw [leadingCoeff, leadingCoeff, leadingTerm?, leadingTerm?, terms_rename hσ, List.head?_map]
  cases p.terms.head? <;> rfl

theorem totalDegree_rename (p : Poly) : (p.rename σ).totalDegree = p.totalDegree := by
  rw [totalDegree, terms_rename hσ, List.foldr_map]
  simp only [Monomial.degree_rename hσ]
  rfl

theorem degreeIn_rename (p : Poly) (v : String) :
    (p.rename σ).degreeIn (σ v) = p.degreeIn v := by
  rw [degreeIn, terms_rename hσ, List.foldr_map]
  simp only [Monomial.exponent_rename hσ]
  rfl

theorem degreeIn_rename_of_notMem (p : Poly) {x : String} (hx : ∀ v, σ v ≠ x) :
    (p.rename σ).degreeIn x = 0 := by
  refine Nat.le_zero.1 (foldr_max_le_iff.2 fun t ht => ?_)
  rw [terms_rename hσ] at ht
  obtain ⟨u, -, rfl⟩ := List.mem_map.1 ht
  exact (Monomial.exponent_rename_of_notMem hσ u.1 hx).le

theorem degrees_rename (p : Poly) : (p.rename σ).degrees = p.degrees.rename σ := by
  refine Monomial.eq_rename hσ (fun v => ?_) fun x hx => ?_
  · rw [exponent_degrees, exponent_degrees, degreeIn_rename hσ]
  · rw [exponent_degrees, degreeIn_rename_of_notMem hσ p hx]

theorem vars_rename (p : Poly) : (p.rename σ).vars = p.vars.map σ := by
  rw [vars, degrees_rename hσ, Monomial.vars_rename hσ]
  rfl

theorem monomialContent_rename (p : Poly) :
    (p.rename σ).monomialContent = p.monomialContent.rename σ := by
  have main (ts : List (Monomial × ℚ)) (m : Monomial) :
      (ts.map fun t => (t.1.rename σ, t.2)).foldl (fun m u => m.gcd u.1) (m.rename σ)
        = (ts.foldl (fun m u => m.gcd u.1) m).rename σ := by
    induction ts generalizing m with
    | nil => rfl
    | cons t ts ih =>
      rw [List.map_cons, List.foldl_cons, List.foldl_cons, Monomial.gcd_rename hσ, ih]
  unfold monomialContent
  rw [terms_rename hσ]
  cases p.terms with
  | nil => rfl
  | cons t ts => exact main ts t.1

/-! ## Operations -/

/-- Normalizing looks at the coefficients in their order only. -/
theorem normalized_rename (p : Poly) : (p.rename σ).normalized = p.normalized.rename σ := by
  have hdenominator : (p.rename σ).commonDenominator = p.commonDenominator := by
    rw [commonDenominator, terms_rename hσ, List.foldr_map]
    rfl
  have hnumerator : (p.rename σ).commonNumerator = p.commonNumerator := by
    rw [commonNumerator, hdenominator, terms_rename hσ, List.foldr_map]
    rfl
  have hnormalizer : (p.rename σ).normalizer = p.normalizer := by
    rw [normalizer, hdenominator, hnumerator, leadingCoeff_rename hσ]
    rfl
  rw [normalized, normalized, isZero_rename hσ, hnormalizer, scale_rename, apply_ite (rename σ)]
  rfl

theorem coefficientIn_rename (p : Poly) (v : String) (i : ℕ) :
    (p.rename σ).coefficientIn (σ v) i = (p.coefficientIn v i).rename σ := by
  have hexponent (t : Monomial × ℚ) :
      ((t.1.rename σ).exponent (σ v) == i) = (t.1.exponent v == i) := by
    rw [Monomial.exponent_rename hσ]
  rw [coefficientIn, coefficientIn, rename_ofTerms, terms_rename hσ, filter_map_of_eq hexponent,
    List.map_map, List.map_map]
  refine congrArg ofTerms (List.map_congr_left fun t _ => ?_)
  exact congrArg (·, t.2) (Monomial.without_rename hσ t.1 v)

theorem derivative_rename (p : Poly) (v : String) :
    (p.rename σ).derivative (σ v) = (p.derivative v).rename σ :=
  toMv_injective (by
    simp only [toMv_derivative, toMv_rename, MvPolynomial.pderiv_rename hσ.injective])

theorem substituteZero_rename (p : Poly) (v : String) :
    (p.rename σ).substituteZero (σ v) = (p.substituteZero v).rename σ := by
  have hexponent (t : Monomial × ℚ) :
      ((t.1.rename σ).exponent (σ v) == 0) = (t.1.exponent v == 0) := by
    rw [Monomial.exponent_rename hσ]
  have hterms (q : Poly) (w : String) :
      (q.substituteZero w).terms = q.terms.filter fun t => t.1.exponent w == 0 := rfl
  rw [← terms_inj, hterms, terms_rename hσ, terms_rename hσ, hterms, filter_map_of_eq hexponent]

/-! ## The order of polynomials -/

theorem listed_rename (p : Poly) :
    (p.rename σ).listed = p.listed.map fun t => (t.1.rename σ, t.2) := by
  rw [listed, terms_rename hσ]
  refine (List.map_mergeSort fun s _ t _ => ?_).symm
  rw [Monomial.cmp_rename hσ]

theorem cmp_rename (p q : Poly) : (p.rename σ).cmp (q.rename σ) = p.cmp q := by
  rw [cmp, listed_rename hσ, listed_rename hσ]
  refine compareLex_map (fun s t => ?_) p.listed q.listed
  rw [Term.cmp, Term.cmp, Monomial.cmp_rename hσ]

end Poly
end Meadow
