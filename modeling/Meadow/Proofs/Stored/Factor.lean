import Mathlib
import Meadow.Poly.FactorText
import Meadow.Proofs.Poly.Radical
import Meadow.Proofs.Stored.Kronecker

set_option autoImplicit false

/-!
# The factors of stored polynomials

The search for divisors, the recombination of pieces, the collection of factors and their order
do over stored polynomials what they do over the represented ones, unless an exponent, a degree or
a multiplicity overflows.  The wrapping build lists factors whose product is another polynomial
(`Stored.Poly.factorize_wraps`), and it takes a reducible polynomial for an irreducible one where a
total degree wraps to zero.
-/

namespace Meadow

open Machine (Ensures Returns Overflows)

/-! ## Searching subsets -/

namespace Subset

variable {α β : Type} {R : α → β → Prop} {test : List ℕ → Machine (Option α)}
  {test' : List ℕ → Option β}

theorem ensures_searchFromM? (htest : ∀ s, Ensures (test s) (Option.Rel R · (test' s)))
    (n visits : ℕ) (s : List ℕ) :
    Ensures (searchFromM? test n visits s) (Option.Rel R · (searchFrom? test' n visits s)) := by
  induction visits generalizing s with
  | zero => exact Machine.ensures_pure .none
  | succ visits ih =>
    rw [searchFromM?, searchFrom?]
    refine (htest s).bind fun x hx => ?_
    generalize test' s = y at hx ⊢
    cases hx with
    | some hab => exact Machine.ensures_pure (.some hab)
    | none =>
      dsimp only
      cases next? n s with
      | none => exact Machine.ensures_pure .none
      | some s' => exact ih s'

theorem ensures_searchM? (htest : ∀ s, Ensures (test s) (Option.Rel R · (test' s))) (n k : ℕ) :
    Ensures (searchM? test n k) (Option.Rel R · (search? test' n k)) :=
  ensures_searchFromM? htest n _ _

theorem rel_getElem? {xs : List α} {ys : List β} (h : List.Forall₂ R xs ys) (i : ℕ) :
    Option.Rel R xs[i]? ys[i]? := by
  induction h generalizing i with
  | nil => exact .none
  | cons hxy _ ih =>
    cases i with
    | zero => exact .some hxy
    | succ i => exact ih i

theorem rel_zipIdx {xs : List α} {ys : List β} (h : List.Forall₂ R xs ys) (i : ℕ) :
    List.Forall₂ (fun x y => R x.1 y.1 ∧ x.2 = y.2) (xs.zipIdx i) (ys.zipIdx i) := by
  induction h generalizing i with
  | nil => exact .nil
  | cons hxy _ ih => exact .cons ⟨hxy, rfl⟩ (ih (i + 1))

theorem rel_select {xs : List α} {ys : List β} (h : List.Forall₂ R xs ys) (s : List ℕ) :
    List.Forall₂ R (select xs s) (select ys s) := by
  refine List.rel_filterMap (R := (· = ·)) (P := R) ?_ (List.forall₂_same.2 fun _ _ => rfl)
  rintro i _ rfl
  exact rel_getElem? h i

theorem rel_remove {xs : List α} {ys : List β} (h : List.Forall₂ R xs ys) (s : List ℕ) :
    List.Forall₂ R (remove xs s) (remove ys s) := by
  refine List.rel_map (R := fun x y => R x.1 y.1 ∧ x.2 = y.2) (fun _ _ hxy => hxy.1) ?_
  exact rel_filter (fun hxy => by rw [hxy.2]) (rel_zipIdx h 0)

end Subset

theorem Factorization.render_singleton (c : ℚ) (t : Poly × ℕ) :
    render ⟨c, [t]⟩ = if t.2 = 1 ∧ c = 1 then t.1.render else render.renderFactors c [t] := by
  obtain ⟨p, _ | _ | k⟩ := t
  · exact (if_neg fun h => absurd h.1 Nat.zero_ne_one).symm
  · by_cases hc : c = 1
    · exact (if_pos hc).trans (if_pos ⟨rfl, hc⟩).symm
    · exact (if_neg hc).trans (if_neg fun h => hc h.2).symm
  · exact (if_neg fun h => Nat.succ_succ_ne_one k h.1).symm

theorem Factorization.render_cons_cons (c : ℚ) (t u : Poly × ℕ) (ts : List (Poly × ℕ)) :
    render ⟨c, t :: u :: ts⟩ = render.renderFactors c (t :: u :: ts) := by
  obtain ⟨p, _ | _ | k⟩ := t
  · rfl
  · rfl
  · rfl

/-- The variables are listed in increasing order. -/
theorem Poly.pairwise_vars (p : Poly) : p.vars.Pairwise fun v w => compare v w = .lt :=
  List.pairwise_map.2 p.degrees.exponents.sorted

namespace Stored

variable {p : Poly} {a : Meadow.Poly} {k : Kronecker} {pieces : List Poly}
  {pieces' : List Meadow.Poly}

namespace Poly

/-! ## The search for divisors -/

/-- Divisors found at the same places. -/
structure FoundRel (f : Found) (g : Meadow.Poly.Found) : Prop where
  divisor : f.divisor.Represents g.divisor
  cofactor : f.cofactor.Represents g.cofactor
  places : f.places = g.places

theorem Represents.findDivisor? (h : p.Represents a)
    (hpieces : List.Forall₂ Represents pieces pieces') (size : ℕ) :
    Ensures (findDivisor? k p pieces size)
      (Option.Rel FoundRel · (Meadow.Poly.findDivisor? k a pieces' size)) := by
  rw [Poly.findDivisor?, Meadow.Poly.findDivisor?, hpieces.length_eq]
  refine Subset.ensures_searchM? (fun s => ?_) _ _
  rw [divisorAt?]
  refine (represents_one.foldlM_mul (Subset.rel_select hpieces s)).bind fun image himage => ?_
  refine (Kronecker.ensures_preimage? himage).bind fun x hx => ?_
  generalize Meadow.Kronecker.preimage? k _ = y at hx ⊢
  cases hx with
  | none => exact Machine.ensures_pure .none
  | some hc =>
    dsimp only
    rw [hc.isConstant]
    split
    · exact Machine.ensures_pure .none
    · exact (h.divExact? hc).map fun r hr =>
        rel_optionMap (S := FoundRel) (fun hcofactor => ⟨hc, hcofactor, rfl⟩) hr

theorem Represents.recombineSteps (h : p.Represents a)
    (hpieces : List.Forall₂ Represents pieces pieces') (steps size : ℕ) :
    Ensures (recombineSteps k steps size p pieces)
      (List.Forall₂ Represents · (Meadow.Poly.recombineSteps k steps size a pieces')) := by
  have hwhole {p : Poly} {a : Meadow.Poly} (h : p.Represents a) : List.Forall₂ Represents
      (if p.isConstant then [] else [p.normalized])
      (if a.isConstant then [] else [a.normalized]) := by
    rw [h.isConstant]
    split
    · exact .nil
    · exact .cons h.normalized .nil
  induction steps generalizing size p a pieces pieces' with
  | zero => exact Machine.ensures_pure (hwhole h)
  | succ steps ih =>
    rw [Poly.recombineSteps, Meadow.Poly.recombineSteps, hpieces.length_eq]
    split
    · refine (h.findDivisor? hpieces size).bind fun x hx => ?_
      generalize Meadow.Poly.findDivisor? k a pieces' size = y at hx ⊢
      cases hx with
      | none => exact ih h hpieces _
      | @some f g hfound =>
        obtain ⟨hdivisor, hcofactor, hplaces⟩ := hfound
        dsimp only
        rw [hplaces]
        exact (ih hcofactor (Subset.rel_remove hpieces g.places) size).map fun _ hrest =>
          .cons hdivisor.normalized hrest
    · exact Machine.ensures_pure (hwhole h)

/-! ## Irreducible factors -/

theorem Represents.isEvidentlyIrreducible (h : p.Represents a) :
    Ensures p.isEvidentlyIrreducible (· = a.isEvidentlyIrreducible) := by
  rw [Poly.isEvidentlyIrreducible, Meadow.Poly.isEvidentlyIrreducible]
  refine h.totalDegree.bind fun d hd => ?_
  have hle : d ≤ 1 ↔ a.totalDegree ≤ 1 := hd.le_iff rfl
  by_cases hdegree : a.totalDegree ≤ 1
  · rw [if_pos (hle.2 hdegree), decide_eq_true hdegree, Bool.true_or]
    exact Machine.ensures_pure rfl
  · rw [if_neg (mt hle.1 hdegree), decide_eq_false hdegree, Bool.false_or, h.vars]
    refine Ensures.anyM (R := (· = ·)) (fun {v w} hv => ?_) (List.forall₂_same.2 fun _ _ => rfl)
    subst hv
    have hone : p.degreeIn v = 1 ↔ a.degreeIn v = 1 := (h.degreeIn v).eq_iff rfl
    by_cases h1 : a.degreeIn v = 1
    · rw [if_pos (hone.2 h1), h1]
      exact (h.content v).map fun c hc => hc.isConstant
    · rw [if_neg (mt hone.1 h1), beq_false_of_ne h1]
      exact Machine.ensures_pure rfl

/-- The pieces that are read back, each on its own. -/
theorem ensures_preimages (h : List.Forall₂ Represents pieces pieces') :
    Ensures (do return (← pieces.mapM (Kronecker.preimage? k)).filterMap fun q => q.map normalized)
      (List.Forall₂ Represents · (pieces'.filterMap fun piece =>
        (k.preimage? piece).map Meadow.Poly.normalized)) := by
  refine (Ensures.mapM (R := Represents) (S := Option.Rel Represents) Kronecker.ensures_preimage?
    h).map fun qs hqs => ?_
  have hnormalized (q : Option Poly) (b : Option Meadow.Poly) (hq : Option.Rel Represents q b) :
      Option.Rel Represents (q.map normalized) (b.map Meadow.Poly.normalized) :=
    rel_optionMap (R := Represents) (S := Represents) (fun h => h.normalized) hq
  have hmapped := List.rel_filterMap hnormalized hqs
  rwa [List.filterMap_map] at hmapped

theorem Represents.irreducibleFactors (h : p.Represents a) (h0 : a ≠ 0) :
    Ensures p.irreducibleFactors (List.Forall₂ Represents · a.irreducibleFactors) := by
  have hwhole : List.Forall₂ Represents [p.normalized] [a.normalized] := .cons h.normalized .nil
  rw [Poly.irreducibleFactors, Meadow.Poly.irreducibleFactors]
  refine h.isEvidentlyIrreducible.bind fun e he => ?_
  rw [he]
  split
  · exact Machine.ensures_pure hwhole
  · rw [Kronecker.ofPoly?_eq h]
    cases hk : Meadow.Kronecker.ofPoly? a with
    | none => exact Machine.ensures_pure hwhole
    | some k =>
      have himage := Kronecker.represents_image h hk
      dsimp only
      rw [Meadow.Kronecker.image_eq_hom] at himage ⊢
      have himage0 := Meadow.Kronecker.hom_ne_zero_of_fits hk (fun _ => le_rfl) h0
      refine (himage.imageFactors (k.over_hom a) himage0).bind fun pieces hpieces => ?_
      split
      · exact ensures_preimages hpieces
      · rw [recombine, Meadow.Poly.recombine, hpieces.length_eq]
        exact h.recombineSteps hpieces _ _

end Poly

/-! ## Products, order and repetition -/

namespace Factorization

variable {fs : List (Poly × UInt32)} {gs : List (Meadow.Poly × ℕ)}

theorem ensures_product (h : List.Forall₂ Poly.PartRel fs gs) {start : Poly} {start' : Meadow.Poly}
    (hstart : start.Represents start') : Ensures (product fs start)
      (·.Represents (gs.foldl (fun acc g => acc.mul (g.1.pow g.2)) start')) :=
  Ensures.foldlM (R := Poly.PartRel) (S := Poly.Represents) (fun {acc acc' f g} hacc hfg => by
    rw [show f.2.toNat = g.2 from hfg.2]
    exact (hfg.1.pow g.2).bind fun _ hpower => hacc.mul hpower) h hstart

theorem ensures_sort (h : List.Forall₂ Poly.PartRel fs gs) :
    Ensures (sort fs) (List.Forall₂ Poly.PartRel ·
      (gs.mergeSort fun f g => (Meadow.Factorization.cmp f.1 g.1).isLE)) := by
  unfold sort
  refine Ensures.sortKeyed (R := Poly.PartRel) (K := fun w g => Monomial.WordRel w g.1.totalDegree)
    (fun hf => hf.1.totalDegree) (fun {f g f' g'} hf hf' => ?_) h
  rw [cmp, Meadow.Factorization.cmp, compare_toNat, hf.1, hf'.1, hf.2.1.size, hf'.2.1.size,
    hf.2.1.cmp hf'.2.1]

theorem ensures_mergeEqual (h : List.Forall₂ Poly.PartRel fs gs) :
    Ensures (mergeEqual fs) (List.Forall₂ Poly.PartRel · (Meadow.Factorization.mergeEqual gs)) := by
  induction h with
  | nil => exact Machine.ensures_pure .nil
  | @cons f f' fs gs hf _ ih =>
    rw [mergeEqual, Meadow.Factorization.mergeEqual]
    refine ih.bind fun rest hrest => ?_
    generalize Meadow.Factorization.mergeEqual gs = rest' at hrest ⊢
    cases hrest with
    | nil => exact Machine.ensures_pure (.cons hf .nil)
    | @cons g g' _ _ hg hgs =>
      refine Ensures.ite (S := List.Forall₂ Poly.PartRel) (hf.1.eq_iff hg.1) ?_
        (Machine.ensures_pure (.cons hf (.cons hg hgs)))
      exact (Monomial.ensures_add hf.2 hg.2).map fun _ hw => .cons ⟨hg.1, hw⟩ hgs

/-- The constants are equal, and the factors with their multiplicities are represented. -/
structure Represents (f : Factorization) (g : Meadow.Factorization) : Prop where
  constant : f.constant = g.constant
  factors : List.Forall₂ Poly.PartRel f.factors g.factors

theorem Represents.expand {f : Factorization} {g : Meadow.Factorization} (h : f.Represents g) :
    Ensures f.expand (·.Represents g.expand) := by
  have hexpand := ensures_product h.factors (Poly.represents_constant g.constant)
  rw [Meadow.Factorization.foldl_mul_pow, ← Meadow.Factorization.product_eq_prod,
    ← Meadow.Poly.scale_eq_mul] at hexpand
  rw [Factorization.expand, h.constant]
  exact hexpand

end Factorization

namespace Poly

/-! ## The factorization -/

/-- The first of the names, if the polynomial is not free of it, is the first of its variables. -/
theorem head?_vars {v : String} {vs : List String}
    (hvs : (v :: vs).Pairwise fun v w => compare v w = .lt) (hover : Meadow.Poly.Over (v :: vs) a)
    (hv : a.degreeIn v ≠ 0) : ∃ ws, a.vars = v :: ws := by
  have hmem : v ∈ a.vars := Meadow.Poly.mem_vars_iff.2 (Nat.pos_of_ne_zero hv)
  have hsorted := a.pairwise_vars
  cases hvars : a.vars with
  | nil =>
    rw [hvars] at hmem
    cases hmem
  | cons w ws =>
    rw [hvars] at hmem hsorted
    obtain rfl | hvws := List.mem_cons.1 hmem
    · exact ⟨ws, rfl⟩
    · have hwv : compare w v = .lt := (List.pairwise_cons.1 hsorted).1 v hvws
      have hw : w ∈ v :: vs := by
        by_contra hw
        have hpos := Meadow.Poly.mem_vars_iff.1 (hvars ▸ List.mem_cons_self : w ∈ a.vars)
        exact hpos.ne' (hover w hw)
      obtain rfl | hwvs := List.mem_cons.1 hw
      · exact ⟨ws, rfl⟩
      · have hvw : compare v w = .lt := (List.pairwise_cons.1 hvs).1 w hwvs
        exact absurd (Std.TransCmp.lt_trans hvw hwv) (by simp [Std.ReflCmp.compare_self])

theorem ensures_factorsOfPart {part : Poly × UInt32} {part' : Meadow.Poly × ℕ}
    (h : PartRel part part') (h0 : part'.1 ≠ 0) :
    Ensures (do
      return ((← part.1.irreducibleFactors).filter fun f => !f.isConstant).map fun f => (f, part.2))
      (List.Forall₂ PartRel · (Meadow.Poly.factorsOfPart part')) := by
  refine (h.1.irreducibleFactors h0).map fun fs hfs => ?_
  have hkept := rel_filter (p := fun f : Poly => !f.isConstant)
    (q := fun f : Meadow.Poly => !f.isConstant) (fun hf => by rw [hf.isConstant]) hfs
  rw [List.forall₂_map_left_iff, Meadow.Poly.factorsOfPart, List.forall₂_map_right_iff]
  exact hkept.imp fun _ _ hf => ⟨hf, h.2⟩

theorem Represents.collectFactors {vs : List String}
    (hvs : vs.Pairwise fun v w => compare v w = .lt) (h : p.Represents a)
    (hover : Meadow.Poly.Over vs a) (h0 : a ≠ 0) :
    Ensures p.collectFactors (List.Forall₂ PartRel · (Meadow.Poly.collectFactors vs a)) := by
  have hconstant {p : Poly} {a : Meadow.Poly} (h : p.Represents a) (hconst : a.isConstant = true) :
      Ensures p.collectFactors (List.Forall₂ PartRel · []) := by
    rw [Poly.collectFactors, h.isConstant, if_pos hconst]
    exact Machine.ensures_pure .nil
  induction vs generalizing p a with
  | nil => exact hconstant h (Meadow.Poly.isConstant_iff_degreeIn.2 fun x => hover x (by simp))
  | cons v vs ih =>
    have htail := (List.pairwise_cons.1 hvs).2
    rw [Meadow.Poly.collectFactors]
    by_cases hconst : a.isConstant = true
    · rw [if_pos hconst]
      exact hconstant h hconst
    · rw [if_neg hconst]
      by_cases hfree : a.degreeIn v = 0
      · rw [if_pos hfree]
        exact ih htail h (hover.cons_of_degreeIn_eq_zero hfree) h0
      · obtain ⟨ws, hvars⟩ := head?_vars hvs hover hfree
        have hsplit := Meadow.Poly.isSplit_splitBy hover h0
        rw [Poly.collectFactors, h.isConstant, if_neg hconst, h.vars, hvars, if_neg hfree]
        refine (h.splitContent v).bind fun s hs => ?_
        have hcontent := hsplit.over_content hover h0
        refine (ih htail hs.1 hcontent hsplit.ne_zero).bind fun inner hinner => ?_
        refine (hs.2.squarefreeParts v).bind fun parts hparts => ?_
        have hparts := rel_and_right hparts fun f hf => ne_zero_of_dvd_ne_zero
          hsplit.primitive.ne_zero (Meadow.Poly.dvd_of_mem_squarefreeParts hsplit.primitive hf)
        refine (Ensures.mapM (S := List.Forall₂ PartRel)
          (fun hpart => ensures_factorsOfPart hpart.1 hpart.2) hparts).map fun found hfound => ?_
        exact List.rel_append hinner (List.rel_flatten hfound)

theorem Represents.factorize (h : p.Represents a) :
    Ensures p.factorize (·.Represents a.factorize) := by
  rw [Poly.factorize, Meadow.Poly.factorize, h.constantValue?]
  cases hvalue : a.constantValue? with
  | some c => exact Machine.ensures_pure ⟨rfl, .nil⟩
  | none =>
    have hconst := Meadow.Poly.constantValue?_eq_none_iff.1 hvalue
    have hrest := rel_getD (h.divMonomial? h.monomialContent) h
    have hpowers : List.Forall₂ PartRel (p.monomialContent.powers.map fun w => (var w.1, w.2))
        (a.monomialContent.powers.map fun w => (Meadow.Poly.var w.1, w.2)) :=
      List.rel_map (fun w w' hw => ⟨hw.1 ▸ represents_var w.1, hw.2⟩)
        (Monomial.represents_iff.1 h.monomialContent)
    refine (hrest.collectFactors a.monomialFree.pairwise_vars (Meadow.Poly.over_vars _)
      (Meadow.Poly.monomialFree_ne_zero (Meadow.Poly.ne_zero_of_not_isConstant hconst))).bind
      fun found hfound => ?_
    have hall := List.rel_append hpowers hfound
    refine (Factorization.ensures_sort hall).bind fun sorted hsorted => ?_
    refine (Factorization.ensures_mergeEqual hsorted).bind fun factors hfactors => ?_
    refine (Factorization.ensures_product hfactors represents_one).bind fun product hproduct => ?_
    have hlead : product.leadingCoeff ≠ 0 := by
      have hne := Meadow.Poly.leadingCoeff_product_ne_zero hconst
      rw [Meadow.Poly.factors_factorize hconst] at hne
      rw [hproduct.leadingCoeff]
      exact hne
    rw [(Machine.returns_divide hlead).bind_eq, h.leadingCoeff, hproduct.leadingCoeff]
    exact Machine.ensures_pure ⟨rfl, hfactors⟩

theorem Represents.factors (h : p.Represents a) :
    Ensures p.factors (List.Forall₂ Represents · a.factors) := by
  rw [Poly.factors, Meadow.Poly.factors, h.isConstant]
  split
  · exact Machine.ensures_pure (.cons h .nil)
  · exact h.factorize.map fun f hf => List.rel_map (fun _ _ hg => hg.1) hf.factors

theorem Represents.radical (h : p.Represents a) : Ensures p.radical (·.Represents a.radical) := by
  rw [Poly.radical, Meadow.Poly.radical, h.isConstant]
  split
  · exact Machine.ensures_pure h
  · exact h.factors.bind fun fs hfs => represents_one.foldlM_mul hfs

end Poly

/-! ## The text -/

namespace Factorization

theorem ensures_renderFactor {f : Poly × UInt32} {g : Meadow.Poly × ℕ} (h : Poly.PartRel f g) :
    Ensures (renderFactor f) (· = Meadow.Factorization.renderFactor g) := by
  refine h.1.render.map fun text htext => ?_
  have hone : f.2 > 1 ↔ g.2 > 1 := Monomial.WordRel.lt_iff rfl h.2
  have hexponent : toString f.2 = toString g.2 := congrArg (fun k : ℕ => toString k) h.2
  rw [Meadow.Factorization.renderFactor, h.1.size, htext, hexponent]
  exact if_congr hone rfl rfl

theorem ensures_renderFactors (c : ℚ) {fs : List (Poly × UInt32)} {gs : List (Meadow.Poly × ℕ)}
    (h : List.Forall₂ Poly.PartRel fs gs) : Ensures (renderFactors c fs)
      (· = Meadow.Factorization.render.renderFactors c gs) := by
  have hparts := Ensures.mapM (R := Poly.PartRel) (S := (· = ·)) ensures_renderFactor h
  refine hparts.map fun parts hparts => ?_
  rw [List.forall₂_eq_eq_eq] at hparts
  rw [hparts, Meadow.Factorization.render.renderFactors]

theorem Represents.render {f : Factorization} {g : Meadow.Factorization} (h : f.Represents g) :
    Ensures f.render (· = g.render) := by
  obtain ⟨c, fs⟩ := f
  obtain ⟨c', gs⟩ := g
  obtain ⟨rfl, hfactors⟩ := h
  have hrest := ensures_renderFactors c hfactors
  dsimp only at hfactors
  cases hfactors with
  | nil => exact Machine.ensures_pure rfl
  | @cons t t' fs gs ht hfs =>
    cases hfs with
    | cons _ _ =>
      rw [Meadow.Factorization.render_cons_cons]
      exact hrest
    | nil =>
      have hwhole : t.2 = 1 ∧ c = 1 ↔ t'.2 = 1 ∧ c = 1 :=
        and_congr_left' (Monomial.WordRel.eq_iff ht.2 rfl)
      rw [Meadow.Factorization.render_singleton]
      exact Ensures.ite (S := fun s s' : String => s = s') hwhole ht.1.render hrest

end Factorization

namespace Poly

/-! ## The factors in canonical form -/

/-- Unless an exponent, a degree or a multiplicity overflows, the factorization multiplied out is
the polynomial.  The factors of a polynomial that is not constant are not constant, canonical and
squarefree, each with a multiplicity of at least one; they are coprime to one another and listed in
strictly increasing order. -/
theorem factorize_exact (hp : p.Proper) :
    Ensures (do (← p.factorize).expand) (· = p) ∧
      (p.isConstant = false → Ensures p.factorize fun f =>
        (∀ t ∈ f.factors, t.1.isConstant = false ∧ t.1.Canonical ∧ 1 ≤ t.2) ∧
        ∃ fs, List.Forall₂ PartRel f.factors fs ∧ (∀ t ∈ fs, Squarefree t.1) ∧
          (fs.Pairwise fun t u => IsRelPrime t.1 u.1) ∧
          fs.Pairwise fun t u => Meadow.Factorization.cmp t.1 u.1 = .lt) := by
  obtain ⟨a, h⟩ := proper_iff.1 hp
  obtain ⟨hexpand, hfactors⟩ := Meadow.Poly.factorize_canonical a
  constructor
  · refine h.factorize.bind fun f hf => hf.expand.mono fun q hq => ?_
    rw [hexpand] at hq
    exact (hq.eq_iff h).2 rfl
  · intro hconst
    rw [h.isConstant] at hconst
    obtain ⟨heach, hcoprime, hsorted⟩ := hfactors hconst
    refine h.factorize.mono fun f hf => ⟨?_, _, hf.factors, fun t ht => (heach t ht).2.2.2,
      hcoprime, hsorted⟩
    have hrel := rel_and_right hf.factors heach
    have hstored : List.Forall₂ (fun (t : Poly × UInt32) (_ : Meadow.Poly × ℕ) =>
        t.1.isConstant = false ∧ t.1.Canonical ∧ 1 ≤ t.2) f.factors a.factorize.factors :=
      hrel.imp fun t u htu => by
        obtain ⟨⟨hpoly, hmultiplicity⟩, hconst, hcanonical, hpos, -⟩ := htu
        have hone : 1 ≤ t.2 ↔ 1 ≤ u.2 := Monomial.WordRel.le_iff rfl hmultiplicity
        exact ⟨hpoly.isConstant.trans hconst, hpoly.canonical_iff.2 hcanonical, hone.2 hpos⟩
    exact ((List.forall₂_and_left _ _).1 (hstored.imp fun _ _ ht => ⟨ht, trivial⟩)).1

theorem returns_factorize_cubic :
    Returns cubic.factorize ⟨1, [((var "x").sub (var "y"), 1), (line 1, 2)]⟩ := by
  decide_cbv

/-- The cube `(x + y) ^ 2 * (x - y)` has the factors `x - y` and `x + y`, in both builds. -/
theorem factorize_exact_cubic :
    cubic.Proper ∧ Returns cubic.factorize ⟨1, [((var "x").sub (var "y"), 1), (line 1, 2)]⟩ ∧
      Ensures (Factorization.expand ⟨1, [((var "x").sub (var "y"), 1), (line 1, 2)]⟩) (· = cubic) ∧
      (line 1).Canonical := by
  have hproper : cubic.Proper := proper_iff.2 ⟨_, represents_cubic⟩
  obtain ⟨hexpand, hfactors⟩ := factorize_exact hproper
  have hreturns := returns_factorize_cubic
  rw [hreturns.bind_eq] at hexpand
  obtain ⟨heach, -⟩ := (hfactors isConstant_cubic).of_returns hreturns
  exact ⟨hproper, hreturns, hexpand, (heach (line 1, 2) (by simp)).2.1⟩

/-- The polynomial `a * b * c ^ N + 2 * a + b ^ 2 * c ^ 2 + 4 * b * c ^ N + 4` with
`N = 2 ^ 31 + 1`. -/
def tower : Poly :=
  ofTerms [(⟨[("a", 1), ("b", 1), ("c", 0x80000001)]⟩, 1), (.power "a" 1, 2),
    (⟨[("b", 2), ("c", 2)]⟩, 1), (⟨[("b", 1), ("c", 0x80000001)]⟩, 4), (.one, 4)]

/-- What `tower` represents. -/
def tower' : Meadow.Poly :=
  let bc (m n : ℕ) : Meadow.Monomial := (Meadow.Monomial.power "b" m).mul (.power "c" n)
  .ofTerms [((Meadow.Monomial.power "a" 1).mul (bc 1 0x80000001), 1), (.power "a" 1, 2),
    (bc 2 2, 1), (bc 1 0x80000001, 4), (.one, 4)]

theorem represents_tower : tower.Represents tower' := by with_unfolding_all decide

/-- The coefficient `b * c ^ N + 2` of `a` in `tower`. -/
def base : Poly := ofTerms [(⟨[("b", 1), ("c", 0x80000001)]⟩, 1), (.one, 2)]

/-- What `base` represents. -/
def base' : Meadow.Poly :=
  .ofTerms [((Meadow.Monomial.power "b" 1).mul (.power "c" 0x80000001), 1), (.one, 2)]

theorem represents_base : base.Represents base' := by with_unfolding_all decide

/-- The square of `b * c ^ N` overflows to `b ^ 2 * c ^ 2`.  So the wrapping build takes the
coefficient of `a` for a divisor of the rest, and lists it beside the whole polynomial. -/
theorem factorize_wraps :
    tower.Proper ∧ Overflows tower.factorize ∧
      tower.factorize.value? .wrapping = some ⟨1, [(base, 1), (tower, 1)]⟩ ∧
      (Factorization.expand ⟨1, [(base, 1), (tower, 1)]⟩).value? .wrapping ≠ some tower :=
  ⟨proper_iff.2 ⟨_, represents_tower⟩, by decide_cbv, by decide_cbv, by decide_cbv⟩

/-! ## Irreducible factors -/

/-- If the integer polynomials met on the way are factored into irreducible ones, and no image
passes the limit, all factors listed are irreducible, unless there is an overflow. -/
theorem irreducible_of_mem_factors (h : p.Represents a)
    (hspan : ∀ q ∈ a.imagedParts, q.degrees.divisorCount ≤ Meadow.Kronecker.degreeLimit + 1)
    (hinputs : ∀ f ∈ a.univariateInputs, ∀ g ∈ IntPoly.factorSquarefree f,
      Irreducible (IntPoly.toPolynomial g)) :
    Ensures p.factorize fun f => ∃ fs, List.Forall₂ PartRel f.factors fs ∧
      ∀ t ∈ fs, Irreducible t.1.toMv :=
  h.factorize.mono fun _ hf =>
    ⟨_, hf.factors, Meadow.Poly.irreducible_of_mem_factorize hspan hinputs⟩

/-- The factors of `x ^ 2 - y ^ 2` are irreducible, as its image falls into irreducible pieces, and
so are those of `(x + y) ^ 2 * (x - y)`, where both builds find them without an image. -/
theorem irreducible_of_mem_factors_squares :
    (∃ a : Meadow.Poly, squares.Represents a ∧ a.univariateInputs = [[-1, 0, 0, 0, 1]] ∧
      Ensures squares.factorize fun f => ∃ fs, List.Forall₂ PartRel f.factors fs ∧
        ∀ t ∈ fs, Irreducible t.1.toMv) ∧
    ∃ fs, List.Forall₂ PartRel [((var "x").sub (var "y"), 1), (line 1, 2)] fs ∧
      ∀ t ∈ fs, Irreducible t.1.toMv := by
  obtain ⟨hspan, heq, hinputs⟩ := Meadow.Poly.irreducible_inputs_squares
  have hnone : cubic'.univariateInputs = [] := by with_unfolding_all decide
  have hcubic := irreducible_of_mem_factors represents_cubic (by with_unfolding_all decide)
    fun f hf => absurd (hnone ▸ hf) List.not_mem_nil
  have hsquares : squares.Represents
      (((Meadow.Poly.var "x").pow 2).sub ((Meadow.Poly.var "y").pow 2)) := by
    with_unfolding_all decide
  exact ⟨⟨_, hsquares, heq, irreducible_of_mem_factors hsquares hspan hinputs⟩,
    hcubic.of_returns returns_factorize_cubic⟩

/-- The difference `h ^ 2 - 1` with `h = a * y ^ 2 ^ 30 * z ^ (2 ^ 30 - 1)`, of total degree
`2 ^ 32`. -/
def unitSquares : Poly :=
  ofTerms [(⟨[("a", 2), ("y", 0x80000000), ("z", 0x7ffffffe)]⟩, 1), (.one, -1)]

/-- The total degree of `h ^ 2 - 1` overflows to zero in the wrapping build, which therefore lists
it as an irreducible factor of itself. -/
theorem isEvidentlyIrreducible_wraps :
    ∃ a : Meadow.Poly, unitSquares.Represents a ∧ ¬ Irreducible a.toMv ∧
      Overflows unitSquares.factorize ∧
      unitSquares.isEvidentlyIrreducible.value? .wrapping = some true ∧
      unitSquares.factorize.value? .wrapping = some ⟨1, [(unitSquares, 1)]⟩ := by
  let h : Meadow.Poly := .monomial ((Meadow.Monomial.power "a" 1).mul
    ((Meadow.Monomial.power "y" 0x40000000).mul (.power "z" 0x3fffffff))) 1
  have hproduct : unitSquares.Represents ((h.sub .one).mul (h.add .one)) := by
    with_unfolding_all decide
  refine ⟨_, hproduct, fun hirreducible => ?_, by decide_cbv, by decide_cbv, by decide_cbv⟩
  have hfactors := ((MulEquiv.irreducible_iff Meadow.Poly.toMvEquiv.toMulEquiv).1
    hirreducible).isUnit_or_isUnit rfl
  have hleft : (h.sub .one).isConstant = false := by with_unfolding_all decide
  have hright : (h.add .one).isConstant = false := by with_unfolding_all decide
  rw [Meadow.Poly.isUnit_iff, Meadow.Poly.isUnit_iff, hleft, hright] at hfactors
  simp at hfactors

/-! ## The radical -/

/-- Unless an exponent, a degree or a multiplicity overflows, the radical of a polynomial that is
not constant is its canonical squarefree part.  It is canonical and squarefree and divides the
polynomial, which divides a power of it, so that both vanish at the same points.  Rational factors
and powers leave it as it is, and two polynomials have the same radical exactly if they have the
same irreducible divisors. -/
theorem radical_isSquarefreePart (h : p.Represents a) (hconst : p.isConstant = false) :
    Ensures p.radical fun r =>
      r.Canonical ∧ r.normalized = r ∧
      (∃ s, r.Represents s ∧ Squarefree s ∧ s ∣ a ∧ ∃ n, a ∣ s.pow n) ∧
      (∀ (K : Type*) [Field K] [CharZero K] (v : String → K), r.value v = 0 ↔ p.value v = 0) ∧
      Ensures r.radical (· = r) ∧
      (∀ c : ℚ, c ≠ 0 → Ensures (p.scale c).radical (· = r)) ∧
      (∀ k, 1 ≤ k → Ensures (do (← p.pow k).radical) (· = r)) ∧
      ∀ (q : Poly) (b : Meadow.Poly), q.Represents b → q.isConstant = false →
        Ensures q.radical fun s => r = s ↔ ∀ g : Meadow.Poly, Irreducible g → (g ∣ a ↔ g ∣ b) := by
  rw [h.isConstant] at hconst
  obtain ⟨⟨hcanonical, hnormalized⟩, hsquarefree, hdvd, hpower, hzeros, hself, hscale, hpow,
    hiff⟩ := Meadow.Poly.squarefreePart_radical hconst
  refine h.radical.mono fun r hr => ⟨hr.canonical_iff.2 hcanonical,
    (hr.normalized.eq_iff hr).2 hnormalized, ⟨_, hr, hsquarefree, hdvd, hpower⟩,
    fun K _ _ v => ?_, hr.radical.mono fun s hs => ?_,
    fun c hc => (h.scale c).radical.mono fun s hs => ?_,
    fun k hk => (h.pow k).bind fun q hq => hq.radical.mono fun s hs => ?_, fun q b hq hq' => ?_⟩
  · rw [hr.value, h.value]
    exact hzeros K v
  · exact (hs.eq_iff hr).2 hself
  · exact (hs.eq_iff hr).2 (hscale c hc)
  · exact (hs.eq_iff hr).2 (hpow k hk)
  · rw [hq.isConstant] at hq'
    exact hq.radical.mono fun s hs => (hr.eq_iff hs).trans (hiff b hq')

/-- The radical of `(x + y) ^ 2 * (x - y)` is `x ^ 2 - y ^ 2`, in both builds. -/
theorem radical_isSquarefreePart_cubic :
    cubic.Represents cubic' ∧ cubic.isConstant = false ∧ Returns cubic.radical squares ∧
      squares.Canonical ∧ squares.normalized = squares ∧
      ∃ s, squares.Represents s ∧ Squarefree s ∧ s ∣ cubic' := by
  have hreturns : Returns cubic.radical squares := by decide_cbv
  obtain ⟨hcanonical, hnormalized, ⟨s, hs, hsquarefree, hdvd, -⟩, -⟩ :=
    (radical_isSquarefreePart.{0} represents_cubic isConstant_cubic).of_returns hreturns
  exact ⟨represents_cubic, isConstant_cubic, hreturns, hcanonical, hnormalized, s, hs, hsquarefree,
    hdvd⟩

/-- What the wrapping build takes for the radical of `tower`, the product of `base` and `tower`,
contains more of `b` than `tower` does, and so is no divisor of it. -/
theorem radical_wraps :
    tower.Represents tower' ∧ tower.isConstant = false ∧ Overflows tower.radical ∧
      ∃ (r : Poly) (s : Meadow.Poly), tower.radical.value? .wrapping = some r ∧ r.Represents s ∧
        ¬ s ∣ tower' := by
  let bc (m n : ℕ) : Meadow.Monomial := (Meadow.Monomial.power "b" m).mul (.power "c" n)
  let a : Meadow.Monomial := .power "a" 1
  let s : Meadow.Poly := .ofTerms [(a.mul (bc 2 2), 1), (a.mul (bc 1 0x80000001), 4), (a, 4),
    (bc 3 0x80000003, 1), (bc 2 2, 6), (bc 1 0x80000001, 12), (.one, 8)]
  have hvalue : tower.radical.value? .wrapping = some
      (ofTerms (s.terms.map fun t =>
        (⟨t.1.powers.map fun w => (w.1, UInt32.ofNat w.2)⟩, t.2))) := by
    decide_cbv
  have hzero : tower'.isZero = false := by with_unfolding_all decide
  have hdegree : tower'.degreeIn "b" < s.degreeIn "b" := by with_unfolding_all decide
  exact ⟨represents_tower, represents_tower.isConstant.trans (by with_unfolding_all decide),
    by decide_cbv, _, s, hvalue, by with_unfolding_all decide,
    Meadow.Poly.not_dvd_of_degreeIn_lt hzero hdegree⟩

end Poly
end Stored
end Meadow
