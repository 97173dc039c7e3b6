import Mathlib
import Meadow.Proofs.Poly.Irreducible
import Meadow.Proofs.Stored.Squarefree
import Meadow.Stored.Factor

set_option autoImplicit false

/-!
# Images of stored polynomials

Kronecker's substitution computes its weights with numbers, and gives up before one of them is too
large for a word.  So the images of stored polynomials are those of what they represent, and so are
the integer polynomials that are factored and the pieces that they make.
-/

namespace Meadow

open Machine (Ensures Returns)

namespace Kronecker

/-! ## Places -/

theorem radixProduct_pos (ds : List (String × ℕ)) : 0 < radixProduct ds := by
  induction ds with
  | nil => exact Nat.one_pos
  | cons p ds ih => exact Nat.mul_pos (Nat.succ_pos p.2) ih

/-- A product of places is formed from either end. -/
theorem foldl_mul_power (e : ℕ) (places : List Place) (m : Monomial) :
    places.foldl (fun m place => m.mul (.power place.var (e / place.weight % place.radix))) m
      = m.mul (unweighPlaces places e) := by
  induction places generalizing m with
  | nil => exact Monomial.ext_exponent fun v => (Monomial.exponent_mul m .one v).symm
  | cons place places ih =>
    rw [List.foldl_cons, ih]
    refine Monomial.ext_exponent fun v => ?_
    change _ = (m.mul ((Monomial.power place.var (e / place.weight % place.radix)).mul
      (unweighPlaces places e))).exponent v
    simp only [Monomial.exponent_mul, Nat.add_assoc]

theorem span_le_of_ofPoly? {k : Kronecker} {p : Poly} (hk : ofPoly? p = some k) :
    k.span ≤ degreeLimit + 1 := by
  unfold ofPoly? at hk
  dsimp only at hk
  split at hk
  · cases hk
  · next hle =>
    cases hk
    exact Nat.not_lt.1 hle

theorem weigh_lt_of_mem_terms {k : Kronecker} {p : Poly} (hk : ofPoly? p = some k)
    {t : Monomial × ℚ} (ht : t ∈ p.terms) : k.weigh t.1 < UInt32.size := by
  have hdigits := digitsValue_lt (exponent_le_of_fits (fun _ => le_rfl)
    (Poly.coeff_ne_zero_of_mem ht))
  rw [← weigh_eq_digitsValue hk, ← span_eq_radixProduct hk] at hdigits
  exact (hdigits.trans_le (span_le_of_ofPoly? hk)).trans_le (by decide)

end Kronecker

namespace Poly

theorem powers_degrees (p : Poly) : p.degrees.powers = p.vars.map fun v => (v, p.degreeIn v) := by
  have hpowers : p.vars.map (fun v => (v, p.degreeIn v))
      = p.degrees.powers.map fun w => (w.1, p.degreeIn w.1) := by
    rw [vars, Monomial.vars, FinSupp.keys, List.map_map]
    rfl
  rw [hpowers]
  refine (List.map_id _).symm.trans (List.map_congr_left fun w hw => ?_)
  have hexponent : p.degrees.exponent w.1 = w.2 := (FinSupp.mem_entries_iff.1 hw).1
  rw [← exponent_degrees, hexponent]
  rfl

end Poly

namespace Stored

variable {p q : Poly} {a b : Meadow.Poly}

namespace Kronecker

/-- The weights are passed on to the last place, unless one of them is too large. -/
theorem placesFrom?_eq (ds : List (String × ℕ)) {w : ℕ}
    (hw : w ≤ Meadow.Kronecker.degreeLimit + 1) :
    placesFrom? w ds =
      if w * Meadow.Kronecker.radixProduct ds > Meadow.Kronecker.degreeLimit + 1 then none
      else some (Meadow.Kronecker.placesFrom w ds, w * Meadow.Kronecker.radixProduct ds) := by
  induction ds generalizing w with
  | nil =>
    have hone : w * Meadow.Kronecker.radixProduct [] = w := Nat.mul_one w
    rw [hone, if_neg (Nat.not_lt.2 hw)]
    rfl
  | cons d ds ih =>
    have hproduct : w * Meadow.Kronecker.radixProduct (d :: ds)
        = w * (d.2 + 1) * Meadow.Kronecker.radixProduct ds := (Nat.mul_assoc _ _ _).symm
    rw [placesFrom?, hproduct]
    by_cases hnext : w * (d.2 + 1) > Meadow.Kronecker.degreeLimit + 1
    · have hle := Nat.le_mul_of_pos_right (w * (d.2 + 1))
        (Meadow.Kronecker.radixProduct_pos ds)
      rw [if_pos hnext, if_pos (hnext.trans_le hle)]
    · rw [if_neg hnext, ih (Nat.not_lt.1 hnext)]
      split
      · rfl
      · rfl

theorem ofPoly?_eq (h : p.Represents a) : ofPoly? p = Meadow.Kronecker.ofPoly? a := by
  have hdegrees : (p.vars.map fun v => (v, (p.degreeIn v).toNat)) = a.degrees.powers := by
    rw [Meadow.Poly.powers_degrees, h.vars]
    exact List.map_congr_left fun v _ => congrArg (Prod.mk v) (h.degreeIn v)
  have hproduct : Meadow.Kronecker.radixProduct a.degrees.powers = a.degrees.divisorCount := rfl
  rw [ofPoly?, hdegrees, placesFrom?_eq _ (by decide), Nat.one_mul, hproduct,
    Meadow.Kronecker.ofPoly?]
  split
  · rfl
  · rfl

/-! ## Images -/

variable {k : Kronecker}

theorem weigh_eq {s : Monomial} {m : Meadow.Monomial} (h : s.Represents m) :
    weigh k s = k.weigh m := by
  unfold weigh Meadow.Kronecker.weigh
  exact congrArg (fun f => k.places.foldr f 0) (funext fun place => funext fun n => by
    rw [show (s.exponent place.var).toNat = _ from h.exponent place.var])

theorem represents_imagePower {e : ℕ} (h : e < UInt32.size) :
    (imagePower e).Represents (.power Meadow.Kronecker.imageVar e) :=
  Monomial.represents_power _ (UInt32.toNat_ofNat_of_lt' h)

theorem represents_image (h : p.Represents a) (hk : Meadow.Kronecker.ofPoly? a = some k) :
    (image k p).Represents (k.image a) := by
  have hterms := rel_and_right h fun u hu => Meadow.Kronecker.weigh_lt_of_mem_terms hk hu
  refine Poly.represents_ofTerms (List.rel_map (fun t u ht => ⟨?_, ht.1.2⟩) hterms)
  dsimp only
  rw [weigh_eq ht.1.1]
  exact represents_imagePower ht.2

theorem ensures_unweigh {e : ℕ} (he : e < UInt32.size) :
    Ensures (unweigh k e) (·.Represents (k.unweigh e)) := by
  have hplaces : List.Forall₂ (fun x y : Place => x = y) k.places k.places :=
    List.forall₂_same.2 fun _ _ => rfl
  have hfold := Ensures.foldlM (S := Monomial.Represents)
    (f := fun m place => m.mul (.power place.var (UInt32.ofNat (e / place.weight % place.radix))))
    (g := fun m place => m.mul (.power place.var (e / place.weight % place.radix)))
    (fun hm hplace => ?_) hplaces Monomial.represents_one
  · rw [Meadow.Kronecker.foldl_mul_power, Meadow.Monomial.one_mul] at hfold
    exact hfold
  · subst hplace
    have hlt (w r : ℕ) : e / w % r < UInt32.size :=
      ((Nat.mod_le _ _).trans (Nat.div_le_self e w)).trans_lt he
    exact hm.mul (Monomial.represents_power _ (UInt32.toNat_ofNat_of_lt' (hlt _ _)))

theorem ensures_preimage? (h : q.Represents b) :
    Ensures (preimage? k q) (Option.Rel Poly.Represents · (k.preimage? b)) := by
  have hall : (q.terms.all fun t => decide
      ((t.1.exponent Meadow.Kronecker.imageVar).toNat < k.span))
        = b.terms.all fun t => decide (t.1.exponent Meadow.Kronecker.imageVar < k.span) :=
    rel_all (R := Poly.TermRel) (fun ht => by
      rw [show (Monomial.exponent _ _).toNat = _ from ht.1.exponent Meadow.Kronecker.imageVar]) h
  rw [preimage?, Meadow.Kronecker.preimage?]
  dsimp only
  rw [hall]
  split
  · refine (Ensures.mapM (S := Poly.TermRel) (fun {t u} ht => ?_) h).map fun ts hts =>
      .some (Poly.represents_ofTerms hts)
    have hexp := ht.1.exponent Meadow.Kronecker.imageVar
    refine (ensures_unweigh (UInt32.toNat_lt _)).map fun m hm => ⟨?_, ht.2⟩
    rw [← show (t.1.exponent Meadow.Kronecker.imageVar).toNat = _ from hexp]
    exact hm
  · exact Machine.ensures_pure .none

end Kronecker

namespace Poly

/-! ## Pieces -/

theorem Represents.imageCoefficients (h : q.Represents b)
    (hover : Meadow.Poly.Over [Meadow.Kronecker.imageVar] b) :
    q.imageCoefficients = b.imageCoefficients := by
  have hnormalized : Meadow.Poly.Over [Meadow.Kronecker.imageVar] b.normalized := by
    by_cases h0 : b = 0
    · rw [h0, Meadow.Poly.normalized_zero]
      exact Meadow.Poly.Over.zero
    · exact hover.of_dvd h0 (Meadow.Poly.associated_normalized b).symm.dvd
  have hdegree := h.normalized.degreeIn Meadow.Kronecker.imageVar
  rw [Poly.imageCoefficients, Meadow.Poly.imageCoefficients, show UInt32.toNat _ = _ from hdegree]
  refine List.map_congr_left fun e he => ?_
  have hlt : e < UInt32.size := by
    rw [List.mem_range, ← hdegree] at he
    exact lt_of_lt_of_le he (UInt32.toNat_lt _)
  have hword : Monomial.WordRel (UInt32.ofNat e) e := UInt32.toNat_ofNat_of_lt' hlt
  have hcoefficient := (h.normalized.expandIn Meadow.Kronecker.imageVar).get
    (fun hk hl => hk.eq_iff hl) represents_zero hword
  obtain ⟨c, hc⟩ : ∃ c, b.normalized.coefficientIn Meadow.Kronecker.imageVar e = .constant c :=
    ⟨_, Meadow.Poly.coefficientIn_eq_constant hnormalized e⟩
  rw [hcoefficient.constantValue?, Meadow.Poly.get_expandIn, hc,
    Meadow.Poly.constantValue?_eq_some_iff.2 rfl, Meadow.Poly.coeff_constant, if_pos rfl]
  rfl

/-- Terms whose coefficient is zero may have any power. -/
theorem represents_imageTerms {cs : List (ℤ × ℕ)} (h : ∀ c ∈ cs, c.1 ≠ 0 → c.2 < UInt32.size) :
    (ofTerms (cs.map fun c => (Kronecker.imagePower c.2, (c.1 : ℚ)))).Represents
      (.ofTerms (cs.map fun c => (.power Meadow.Kronecker.imageVar c.2, (c.1 : ℚ)))) := by
  induction cs with
  | nil => exact represents_zero
  | cons c cs ih =>
    obtain ⟨hc, hcs⟩ := List.forall_mem_cons.1 h
    refine Represents.add ?_ (ih hcs)
    dsimp only
    by_cases h0 : c.1 = 0
    · have hnone (s : Monomial) : monomial s 0 = zero := rfl
      have hnone' (m : Meadow.Monomial) : Meadow.Poly.monomial m 0 = .zero := rfl
      rw [h0, Int.cast_zero, hnone, hnone']
      exact represents_zero
    · exact represents_monomial (Kronecker.represents_imagePower (hc h0)) _

theorem represents_ofImageCoefficients {cs : IntPoly}
    (h : (IntPoly.toPolynomial cs).natDegree < UInt32.size) :
    (ofImageCoefficients cs).Represents (Meadow.Poly.ofImageCoefficients cs) := by
  refine represents_imageTerms fun c hc h0 => ?_
  have hget := List.mem_zipIdx_iff_getElem?.1 (List.mem_reverse.1 hc)
  refine lt_of_le_of_lt (Polynomial.le_natDegree_of_ne_zero ?_) h
  rwa [IntPoly.coeff_toPolynomial, List.getD_eq_getElem?_getD, hget]

theorem natDegree_lt_of_mem_factorSquarefree {f g : IntPoly}
    (h0 : IntPoly.toPolynomial f ≠ 0) (hlength : f.length ≤ UInt32.size)
    (hg : g ∈ IntPoly.factorSquarefree f) :
    (IntPoly.toPolynomial g).natDegree < UInt32.size := by
  have hdvd := List.dvd_prod (List.mem_map_of_mem (f := IntPoly.toPolynomial) hg)
  obtain ⟨c, -, hc⟩ := IntPoly.exists_toPolynomial_primitive (IntPoly.trim f)
  rw [IntPoly.prod_factorSquarefree] at hdvd
  rw [IntPoly.toPolynomial_trim] at hc
  have hle := Polynomial.natDegree_le_of_dvd (hdvd.trans (Dvd.intro_left _ hc.symm)) h0
  refine hle.trans_lt ((Polynomial.natDegree_lt_iff_degree_lt h0).2 ?_)
  refine (Polynomial.degree_lt_iff_coeff_zero _ _).2 ?_
  intro i hi
  rw [IntPoly.coeff_toPolynomial, List.getD_eq_default _ _ (hlength.trans hi)]

theorem Represents.natDegree_lt_of_mem (h : q.Represents b)
    (hover : Meadow.Poly.Over [Meadow.Kronecker.imageVar] b) (h0 : b ≠ 0) {g : IntPoly}
    (hg : g ∈ IntPoly.factorSquarefree b.imageCoefficients) :
    (IntPoly.toPolynomial g).natDegree < UInt32.size := by
  refine natDegree_lt_of_mem_factorSquarefree (fun hzero => ?_) ?_ hg
  · refine Meadow.Poly.normalized_ne_zero h0 ?_
    rw [← Meadow.Poly.ofImageCoefficients_imageCoefficients hover,
      Meadow.Poly.ofImageCoefficients_eq, hzero, map_zero]
  · rw [Meadow.Poly.imageCoefficients, List.length_map, List.length_range,
      ← show UInt32.toNat _ = _ from h.normalized.degreeIn Meadow.Kronecker.imageVar]
    exact UInt32.toNat_lt _

/-- The pieces of an image are those of what it represents. -/
theorem Represents.imageFactors (h : q.Represents b)
    (hover : Meadow.Poly.Over [Meadow.Kronecker.imageVar] b) (h0 : b ≠ 0) :
    Ensures q.imageFactors (List.Forall₂ Represents · b.imageFactors) := by
  obtain ⟨rest', hrest', heq⟩ := Meadow.Poly.exists_divMonomial?_monomialContent b
  have hdvd : rest' ∣ b := ⟨_, heq.trans (mul_comm _ _)⟩
  have hrest0 := ne_zero_of_dvd_ne_zero h0 hdvd
  have hprimitive := Meadow.Poly.primitiveIn_of_over (hover.of_dvd h0 hdvd) hrest0
  obtain ⟨rest, hrest, hrestrel⟩ := exists_of_rel (h.divMonomial? h.monomialContent) hrest'
  have hexponent := h.monomialContent.exponent Meadow.Kronecker.imageVar
  rw [Poly.imageFactors, Meadow.Poly.imageFactors, hrest, hrest', Option.getD_some,
    Option.getD_some, show UInt32.toNat _ = _ from hexponent]
  refine (hrestrel.squarefreeParts _).map fun parts hparts =>
    List.rel_append (rel_replicate (represents_var _) _) ?_
  have hparts := rel_and_right hparts fun f hf =>
    Meadow.Poly.dvd_of_mem_squarefreeParts hprimitive hf
  refine List.rel_flatMap hparts fun part f hpart => ?_
  obtain ⟨⟨hpoly, hmultiplicity⟩, hpartdvd⟩ := hpart
  have hpartdvd := hpartdvd.trans hdvd
  have hpartover := hover.of_dvd h0 hpartdvd
  have hfactors : List.Forall₂ (fun g g' => g = g' ∧
      (IntPoly.toPolynomial g).natDegree < UInt32.size)
      (IntPoly.factorSquarefree f.1.imageCoefficients)
      (IntPoly.factorSquarefree f.1.imageCoefficients) :=
    List.forall₂_same.2 fun g hg =>
      ⟨rfl, hpoly.natDegree_lt_of_mem hpartover (ne_zero_of_dvd_ne_zero h0 hpartdvd) hg⟩
  rw [hpoly.imageCoefficients hpartover, show part.2.toNat = f.2 from hmultiplicity]
  refine List.rel_flatMap hfactors fun g g' hg => ?_
  obtain ⟨rfl, hdegree⟩ := hg
  exact rel_replicate (represents_ofImageCoefficients hdegree) _

end Poly
end Stored
end Meadow
