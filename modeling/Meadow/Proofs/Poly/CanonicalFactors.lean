import Mathlib
import Meadow.Proofs.Poly.Factorization

set_option autoImplicit false

/-!
# The canonical factorization

The factors of a polynomial are canonical, squarefree and coprime to one another, and they
are listed in strictly increasing order (`Poly.factorize_canonical`).  What carries this is
one product: without their multiplicities, the factors found multiply to a squarefree
polynomial (`Poly.squarefree_foundFactors`).  So no two of them are equal, and there is
nothing to merge.
-/

namespace Meadow

/-! ## The order of the factors -/

namespace Factorization

instance : Std.TransCmp cmp :=
  inferInstanceAs (Std.TransCmp
    (compareLex (compareOn Poly.totalDegree) (compareLex (compareOn Poly.size) Poly.cmp)))

theorem eq_of_cmp_eq_eq {f g : Poly} (h : cmp f g = .eq) : f = g := by
  rw [cmp, Ordering.then_eq_eq, Ordering.then_eq_eq] at h
  exact Std.LawfulEqCmp.eq_of_compare h.2.2

theorem mergeEqual_eq_self {fs : List (Poly × ℕ)}
    (h : fs.Pairwise fun f g => f.1 ≠ g.1) : mergeEqual fs = fs := by
  induction fs with
  | nil => rfl
  | cons f fs ih =>
    obtain ⟨hf, hfs⟩ := List.pairwise_cons.1 h
    rw [mergeEqual, ih hfs]
    cases fs with
    | nil => rfl
    | cons g gs => exact if_neg (hf g List.mem_cons_self)

/-- Sorting different factors lists them in strictly increasing order. -/
theorem pairwise_cmp_mergeSort {fs : List (Poly × ℕ)} (h : fs.Pairwise fun f g => f.1 ≠ g.1) :
    (fs.mergeSort fun f g => (cmp f.1 g.1).isLE).Pairwise fun f g => cmp f.1 g.1 = .lt := by
  have htotal (f g : Poly × ℕ) : ((cmp f.1 g.1).isLE || (cmp g.1 f.1).isLE) = true := by
    have hswap : cmp g.1 f.1 = (cmp f.1 g.1).swap := Std.OrientedCmp.eq_swap
    rw [Bool.or_eq_true, hswap, Ordering.isLE_swap]
    cases cmp f.1 g.1 <;> simp
  have hsorted : (fs.mergeSort fun f g => (cmp f.1 g.1).isLE).Pairwise
      fun f g => (cmp f.1 g.1).isLE = true :=
    List.pairwise_mergeSort (fun f g k => Std.TransCmp.isLE_trans) htotal fs
  have hne := ((List.mergeSort_perm fs fun f g => (cmp f.1 g.1).isLE).pairwise_iff
    fun hfg => hfg.symm).2 h
  refine (hsorted.and hne).imp ?_
  intro f g hfg
  cases hcmp : cmp f.1 g.1 with
  | lt => rfl
  | eq => exact absurd (eq_of_cmp_eq_eq hcmp) hfg.2
  | gt => rw [hcmp] at hfg; exact absurd hfg.1 (by decide)

end Factorization

namespace Poly

/-! ## Squarefree products -/

/-- The factors of a squarefree product are coprime to one another. -/
theorem pairwise_isRelPrime_of_squarefree {l : List Poly} (h : Squarefree l.prod) :
    l.Pairwise IsRelPrime := by
  induction l with
  | nil => exact List.Pairwise.nil
  | cons f l ih =>
    rw [List.prod_cons, squarefree_mul_iff] at h
    refine List.pairwise_cons.2 ⟨?_, ih h.2.2⟩
    intro g hg
    exact h.1.of_dvd_right (List.dvd_prod hg)

theorem prod_fst_dvd_prod_pow {l : List (Poly × ℕ)} (h : ∀ f ∈ l, 0 < f.2) :
    (l.map Prod.fst).prod ∣ (l.map fun f => f.1 ^ f.2).prod := by
  induction l with
  | nil => exact dvd_rfl
  | cons f l ih =>
    rw [List.map_cons, List.map_cons, List.prod_cons, List.prod_cons]
    exact mul_dvd_mul (dvd_pow_self f.1 (h f List.mem_cons_self).ne')
      (ih fun g hg => h g (List.mem_cons_of_mem f hg))

theorem prime_var (w : String) : Prime (var w) := by
  refine (MulEquiv.prime_iff toMvEquiv.toMulEquiv).1 ?_
  change Prime (var w).toMv
  rw [toMv_var]
  exact MvPolynomial.X_prime

theorem eq_of_var_dvd_var {v w : String} (h : var v ∣ var w) : v = w := by
  have hle := degreeIn_le_of_dvd (prime_var w).ne_zero h v
  rw [degreeIn_var, degreeIn_var, if_pos rfl] at hle
  by_contra hne
  rw [if_neg hne] at hle
  omega

/-- Different variables that do not divide a squarefree polynomial keep it squarefree. -/
theorem squarefree_prod_var_mul {ws : List String} {c : Poly} (hws : ws.Nodup)
    (hc : Squarefree c) (h : ∀ w ∈ ws, ¬ var w ∣ c) :
    Squarefree ((ws.map var).prod * c) := by
  induction ws with
  | nil => rwa [List.map_nil, List.prod_nil, one_mul]
  | cons w ws ih =>
    obtain ⟨hw, hws⟩ := List.nodup_cons.1 hws
    have hrest := ih hws fun x hx => h x (List.mem_cons_of_mem w hx)
    have hprime := prime_var w
    rw [List.map_cons, List.prod_cons, mul_assoc, squarefree_mul_iff]
    refine ⟨hprime.irreducible.isRelPrime_iff_not_dvd.2 ?_, hprime.irreducible.squarefree, hrest⟩
    intro hdvd
    rcases hprime.dvd_or_dvd hdvd with hdvd | hdvd
    · obtain ⟨_, hmem, hdvd⟩ := hprime.dvd_prod_iff.1 hdvd
      obtain ⟨x, hx, rfl⟩ := List.mem_map.1 hmem
      exact hw (eq_of_var_dvd_var hdvd ▸ hx)
    · exact h w List.mem_cons_self hdvd

/-! ## Monomial contents -/

/-- Some term has no more of a variable than the monomial content. -/
theorem exists_term_of_monomialContent {p : Poly} (hp : p ≠ 0) (x : String) :
    ∃ t ∈ p.terms, t.1.exponent x = p.monomialContent.exponent x := by
  have main (us : List (Monomial × ℚ)) (m : Monomial) :
      (us.foldl (fun m u => m.gcd u.1) m).exponent x = m.exponent x ∨
        ∃ u ∈ us, (us.foldl (fun m u => m.gcd u.1) m).exponent x = u.1.exponent x := by
    induction us generalizing m with
    | nil => exact Or.inl rfl
    | cons u us ih =>
      rw [List.foldl_cons]
      rcases ih (m.gcd u.1) with h | ⟨u', hu', h⟩
      · rw [Monomial.exponent_gcd] at h
        rcases min_choice (m.exponent x) (u.1.exponent x) with hmin | hmin
        · exact Or.inl (h.trans hmin)
        · exact Or.inr ⟨u, List.mem_cons_self, h.trans hmin⟩
      · exact Or.inr ⟨u', List.mem_cons_of_mem u hu', h⟩
  rw [monomialContent]
  cases hterms : p.terms with
  | nil => exact absurd (isZero_iff.1 (by rw [isZero, hterms]; rfl)) hp
  | cons t ts =>
    rcases main ts t.1 with h | ⟨u, hu, h⟩
    · exact ⟨t, List.mem_cons_self, h.symm⟩
    · exact ⟨u, List.mem_cons_of_mem t hu, h.symm⟩

/-- What the monomial content leaves is divisible by no variable. -/
theorem not_var_dvd_of_eq_monomialContent_mul {p rest : Poly} (hp : p ≠ 0)
    (h : p = monomial p.monomialContent 1 * rest) (w : String) : ¬ var w ∣ rest := by
  rintro ⟨s, rfl⟩
  obtain ⟨t, ht, hexp⟩ := exists_term_of_monomialContent hp w
  have hcoeff : p.coeff t.1 ≠ 0 := coeff_ne_zero_of_mem ht
  have hmul : p = monomial (p.monomialContent.mul (.power w 1)) 1 * s := by
    rw [← mul_assoc, var, monomial_mul_monomial, one_mul] at h
    exact h
  rw [hmul] at hcoeff
  obtain ⟨m, n, hm, -, heq⟩ := exists_mul_of_coeff_mul_ne_zero hcoeff
  rw [coeff_monomial] at hm
  split at hm
  · next hcontent =>
    rw [heq, ← hcontent, Monomial.exponent_mul, Monomial.exponent_mul, Monomial.exponent_power,
      if_pos rfl] at hexp
    omega
  · exact hm rfl

/-! ## Canonical factors -/

theorem exists_normalized_of_mem_recombineSteps {k : Kronecker} {steps size : ℕ} {p f : Poly}
    {pieces : List Poly} (h : f ∈ recombineSteps k steps size p pieces) :
    ∃ q : Poly, f = q.normalized := by
  have hwhole {q : Poly} (hf : f ∈ if q.isConstant then [] else [q.normalized]) :
      ∃ q : Poly, f = q.normalized := by
    split at hf
    · cases hf
    · exact ⟨q, List.mem_singleton.1 hf⟩
  induction steps generalizing size p pieces with
  | zero => exact hwhole h
  | succ steps ih =>
    unfold recombineSteps at h
    split at h
    · split at h
      · next found _ =>
        rcases List.mem_cons.1 h with h | h
        · exact ⟨found.divisor, h⟩
        · exact ih h
      · exact ih h
    · exact hwhole h

theorem exists_normalized_of_mem_irreducibleFactors {p f : Poly}
    (h : f ∈ irreducibleFactors p) : ∃ q : Poly, f = q.normalized := by
  unfold irreducibleFactors at h
  split at h
  · exact ⟨p, List.mem_singleton.1 h⟩
  · split at h
    · exact ⟨p, List.mem_singleton.1 h⟩
    · dsimp only at h
      split at h
      · obtain ⟨piece, -, hpiece⟩ := List.mem_filterMap.1 h
        obtain ⟨q, -, hq⟩ := Option.map_eq_some_iff.1 hpiece
        exact ⟨q, hq.symm⟩
      · exact exists_normalized_of_mem_recombineSteps h

theorem canonical_of_mem_irreducibleFactors {p f : Poly} (hp : p ≠ 0)
    (h : f ∈ irreducibleFactors p) : f.Canonical := by
  obtain ⟨q, rfl⟩ := exists_normalized_of_mem_irreducibleFactors h
  have hdvd := (List.dvd_prod h).trans (associated_irreducibleFactors hp).dvd
  refine canonical_normalized fun h0 => ?_
  rw [h0, normalized_zero] at hdvd
  exact hp (zero_dvd_iff.1 hdvd)

/-! ## Squarefree parts over all variables -/

/-- Without their multiplicities, the parts multiply to a squarefree polynomial: the parts of
a content are free of the variable, those of the primitive part are not. -/
theorem squarefree_squarefreePartsOver {vs : List String} {p : Poly} (hover : Over vs p)
    (hp : p ≠ 0) : Squarefree ((squarefreePartsOver vs p).map Prod.fst).prod := by
  induction vs generalizing p with
  | nil => exact squarefree_one
  | cons w vs ih =>
    obtain ⟨-, hparts⟩ | ⟨hrest, hparts⟩ | ⟨c, q, hsplit, hc, hparts⟩ :=
      squarefreePartsOver_cons hover hp
    · rw [hparts]
      exact squarefree_one
    · rw [hparts]
      exact ih hrest hp
    · have hprim := hsplit.primitive
      have hcontent : ((squarefreePartsOver vs c).map Prod.fst).prod ∣ c :=
        (prod_fst_dvd_prod_pow fun f hf => pos_of_mem_squarefreePartsOver hf).trans
          (associated_squarefreePartsOver hc hsplit.ne_zero).dvd
      have hprimitive : ((squarefreeParts q w).map Prod.fst).prod ∣ q :=
        (prod_fst_dvd_prod_pow fun f hf => pos_of_mem_squarefreeParts hf).trans
          (associated_squarefreeParts hprim).dvd
      rw [hparts, List.map_append, List.prod_append, squarefree_mul_iff]
      refine ⟨?_, ih hc hsplit.ne_zero, squarefree_prod_squarefreeParts hprim⟩
      intro d hdc hdq
      have hfree := degreeIn_eq_zero_of_dvd hsplit.ne_zero hsplit.free (hdc.trans hcontent)
      exact hprim d hfree (hdq.trans hprimitive)

theorem squarefree_collectFactors {vs : List String} {p : Poly} (hover : Over vs p)
    (hp : p ≠ 0) : Squarefree ((collectFactors vs p).map Prod.fst).prod := by
  have hassoc : Associated ((collectFactors vs p).map Prod.fst).prod
      ((squarefreePartsOver vs p).map Prod.fst).prod := by
    rw [collectFactors_eq, List.map_flatMap, prod_flatMap]
    refine associated_prod_map fun part hpart => ?_
    have hpart0 := ne_zero_of_dvd_ne_zero hp (dvd_of_mem_squarefreePartsOver hover hp hpart)
    have hfst : (factorsOfPart part).map Prod.fst
        = (irreducibleFactors part.1).filter fun f => !f.isConstant := by
      rw [factorsOfPart, List.map_map]
      exact List.map_id _
    rw [hfst]
    exact associated_filter_irreducibleFactors hpart0
  exact hassoc.squarefree_iff.2 (squarefree_squarefreePartsOver hover hp)

/-! ## The factors found -/

theorem canonical_of_mem_foundFactors {p : Poly} (hp : p ≠ 0) {f : Poly × ℕ}
    (h : f ∈ p.foundFactors) : f.1.isConstant = false ∧ f.1.Canonical := by
  rcases mem_foundFactors h with ⟨w, hw⟩ | ⟨part, hpart, hmem, hconst⟩
  · rw [hw]
    exact ⟨rfl, canonical_var w⟩
  · exact ⟨hconst, canonical_of_mem_irreducibleFactors (ne_zero_of_mem_parts hp hpart) hmem⟩

/-- Without their multiplicities, the factors found multiply to a squarefree polynomial. -/
theorem squarefree_foundFactors {p : Poly} (hp : p ≠ 0) :
    Squarefree (p.foundFactors.map Prod.fst).prod := by
  have hrest := monomialFree_ne_zero hp
  have hcollect : ((collectFactors p.monomialFree.vars p.monomialFree).map Prod.fst).prod
      ∣ p.monomialFree :=
    (prod_fst_dvd_prod_pow fun f hf => pos_of_mem_collectFactors hf).trans
      (associated_collectFactors (over_vars _) hrest).dvd
  have hvars : (p.monomialContent.powers.map fun w => (var w.1, w.2)).map Prod.fst
      = p.monomialContent.vars.map var := by
    rw [List.map_map, Monomial.vars, FinSupp.keys, List.map_map]
    rfl
  rw [foundFactors, List.map_append, List.prod_append, hvars]
  refine squarefree_prod_var_mul p.monomialContent.exponents.nodup_keys
    (squarefree_collectFactors (over_vars _) hrest) fun w _ hdvd => ?_
  exact not_var_dvd_of_eq_monomialContent_mul hp (eq_monomialContent_mul p) w (hdvd.trans hcollect)

theorem pairwise_isRelPrime_foundFactors {p : Poly} (hp : p ≠ 0) :
    p.foundFactors.Pairwise fun f g => IsRelPrime f.1 g.1 :=
  List.pairwise_map.1 (pairwise_isRelPrime_of_squarefree (squarefree_foundFactors hp))

theorem pairwise_ne_foundFactors {p : Poly} (hp : p ≠ 0) :
    p.foundFactors.Pairwise fun f g => f.1 ≠ g.1 := by
  refine (pairwise_isRelPrime_foundFactors hp).imp_of_mem ?_
  intro f g hf _ hrel heq
  rw [← heq, isRelPrime_self, isUnit_iff, (canonical_of_mem_foundFactors hp hf).1] at hrel
  exact Bool.false_ne_true hrel.1

/-- The factors found are different from one another, so merging changes nothing. -/
theorem factors_factorize_eq_mergeSort {p : Poly} (hp : p.isConstant = false) :
    p.factorize.factors
      = p.foundFactors.mergeSort fun f g => (Factorization.cmp f.1 g.1).isLE := by
  have hne := pairwise_ne_foundFactors (ne_zero_of_not_isConstant hp)
  have hsorted := ((List.mergeSort_perm p.foundFactors
    fun f g => (Factorization.cmp f.1 g.1).isLE).pairwise_iff fun hfg => hfg.symm).2 hne
  rw [factors_factorize hp, Factorization.mergeEqual_eq_self hsorted]

/-! ## The factorization -/

/-- Multiplied out, the factorization is the polynomial.  The factors of a polynomial that is
not constant are not constant, canonical and squarefree, each with a multiplicity of at least
one; they are coprime to one another and listed in strictly increasing order. -/
theorem factorize_canonical (p : Poly) :
    p.factorize.expand = p ∧
      (p.isConstant = false →
        (∀ f ∈ p.factorize.factors,
          f.1.isConstant = false ∧ f.1.Canonical ∧ 1 ≤ f.2 ∧ Squarefree f.1) ∧
        (p.factorize.factors.Pairwise fun f g => IsRelPrime f.1 g.1) ∧
        p.factorize.factors.Pairwise fun f g => Factorization.cmp f.1 g.1 = .lt) := by
  refine ⟨expand_factorize_eq p, ?_⟩
  intro hconst
  have hp := ne_zero_of_not_isConstant hconst
  have hperm := List.mergeSort_perm p.foundFactors fun f g => (Factorization.cmp f.1 g.1).isLE
  rw [factors_factorize_eq_mergeSort hconst]
  refine ⟨?_, ?_, Factorization.pairwise_cmp_mergeSort (pairwise_ne_foundFactors hp)⟩
  · intro f hf
    have hmem := hperm.mem_iff.1 hf
    obtain ⟨hfconst, hcanonical⟩ := canonical_of_mem_foundFactors hp hmem
    refine ⟨hfconst, hcanonical, pos_of_mem_foundFactors hmem, ?_⟩
    exact (squarefree_foundFactors hp).squarefree_of_dvd (List.dvd_prod (List.mem_map_of_mem hmem))
  · exact (hperm.pairwise_iff fun hfg => hfg.symm).2 (pairwise_isRelPrime_foundFactors hp)

end Poly
end Meadow
