import Mathlib
import Meadow.Proofs.Poly.CanonicalGcd
import Meadow.Proofs.Stored.Division

set_option autoImplicit false

/-!
# Greatest common divisors of stored polynomials

The recursion over stored polynomials makes the calls that the recursion over the represented
ones makes, in the same order, and these return (`Poly.returns_gcd`).  So each stored call is
followed along what its counterpart returns (`Stored.Poly.simulates_of_returns`), up to an overflow
in one of the products on the way.
-/

namespace Meadow

open Machine (Ensures Returns Overflows)

namespace Poly

/-! ## Coefficients from the lowest power on -/

/-- The coefficients other than zero, with their powers in increasing order. -/
theorem entries_expandIn_reverse (p : Poly) (v : String) :
    (p.expandIn v).entries.reverse
      = ((List.range (p.degreeIn v + 1)).map fun e => (e, p.coefficientIn v e)).filter
          fun e => !e.2.isZero := by
  have hsorted : (p.expandIn v).entries.reverse.Pairwise fun e f => e.1 < f.1 := by
    rw [List.pairwise_reverse]
    exact (p.expandIn v).sorted.imp fun {e f} h => compare_lt_iff_lt.1 h
  have hrange : ((List.range (p.degreeIn v + 1)).map fun e => (e, p.coefficientIn v e)).Pairwise
      fun e f => e.1 < f.1 :=
    List.pairwise_map.2 List.pairwise_lt_range
  have hmem (e : ℕ × Poly) : e ∈ (p.expandIn v).entries.reverse ↔
      e ∈ ((List.range (p.degreeIn v + 1)).map fun e => (e, p.coefficientIn v e)).filter
        fun e => !e.2.isZero := by
    obtain ⟨i, c⟩ := e
    rw [List.mem_reverse, FinSupp.mem_entries_iff, get_expandIn, List.mem_filter, List.mem_map,
      Bool.not_eq_true', isZero_eq_false_iff]
    constructor
    · rintro ⟨rfl, h0⟩
      have hi : i < p.degreeIn v + 1 := by
        by_contra hi
        exact h0 (coefficientIn_eq_zero_of_lt (by omega))
      exact ⟨⟨i, List.mem_range.2 hi, rfl⟩, h0⟩
    · rintro ⟨⟨j, -, hj⟩, h0⟩
      cases hj
      exact ⟨rfl, h0⟩
  exact List.Pairwise.eq_of_mem_iff hsorted (hrange.filter _) hmem

theorem snd_entries_expandIn_reverse (p : Poly) (v : String) :
    ((p.expandIn v).entries.map Prod.snd).reverse
      = (p.coefficientsIn v).filter fun c => !c.isZero := by
  rw [← List.map_reverse, entries_expandIn_reverse, coefficientsIn, List.filter_map,
    List.map_map, List.filter_map]
  rfl

theorem mul_monomial_one (p : Poly) (m : Monomial) : p.mul (monomial m 1) = p.mulTerm m 1 := by
  rw [mulTerm_eq_mul, mul_def, mul_comm]

end Poly

namespace Stored.Poly

variable {p q : Poly} {a b : Meadow.Poly}

theorem Represents.nonzeroCoefficientsIn (h : p.Represents a) (v : String) :
    List.Forall₂ Represents (p.nonzeroCoefficientsIn v)
      ((a.coefficientsIn v).filter fun c => !c.isZero) := by
  rw [← Meadow.Poly.snd_entries_expandIn_reverse]
  exact List.rel_reverse (List.rel_map (fun _ _ he => he.2) (h.expandIn v))

/-! ## Pseudo-remainders -/

theorem Represents.pseudoRemainder {v : String} {r s : Meadow.Poly}
    (hreduces : Meadow.Poly.Reduces v b r s) (hp : p.Represents r) (hq : q.Represents b) :
    Ensures (pseudoRemainder v q p) (·.Represents s) := by
  induction hreduces generalizing p with
  | @done r hr =>
    have hdone : (p.isZero || decide (p.degreeIn v < q.degreeIn v)) = true := by
      rw [Bool.or_eq_true, decide_eq_true_eq, hp.isZero, Meadow.Poly.isZero_iff]
      exact hr.imp_right ((hp.degreeIn v).lt_iff (hq.degreeIn v)).2
    rw [Poly.pseudoRemainder, if_pos hdone]
    exact Machine.ensures_pure hp
  | @cancel r s hr hdeg _ ih =>
    have hopen : (p.isZero || decide (p.degreeIn v < q.degreeIn v)) = false := by
      rw [Bool.or_eq_false_iff, decide_eq_false_iff_not, hp.isZero, Meadow.Poly.isZero_eq_false_iff,
        (hp.degreeIn v).lt_iff (hq.degreeIn v), not_lt]
      exact ⟨hr, hdeg⟩
    have hshift := represents_monomial
      (Monomial.represents_power v ((hp.degreeIn v).sub (hq.degreeIn v) hdeg)) 1
    rw [Poly.pseudoRemainder, hopen]
    refine ((hq.leadingCoefficientIn v).mul hp).bind fun raised hraised => ?_
    refine ((hp.leadingCoefficientIn v).mul hshift).bind fun shifted hshifted => ?_
    rw [Meadow.Poly.mul_monomial_one] at hshifted
    exact (hshifted.mul hq).bind fun multiple hmultiple => ih (hraised.sub hmultiple)

/-! ## Contents -/

theorem ensures_splitContent {v : String} {c : Meadow.Poly} (hp : p.Represents a)
    (hc : Ensures (p.content v) (·.Represents c)) :
    Ensures (p.splitContent v) fun s => s.1.Represents (Meadow.Poly.splitBy c a).1 ∧
      s.2.Represents (Meadow.Poly.splitBy c a).2 := by
  rw [splitContent]
  refine hc.bind fun d hd => ?_
  rw [Meadow.Poly.splitBy, hd.isZero, hd.isOne]
  split
  · exact Machine.ensures_pure ⟨represents_one, hp⟩
  · exact (hp.divExact? hd).map fun _ hr => ⟨hd, rel_getD hr hp⟩

/-! ## The recursion -/

/-- The first name in two stored polynomials is the first variable of those they represent. -/
theorem firstVar?_eq (hp : p.Represents a) (hq : q.Represents b) :
    firstVar? p q = (a.degrees.lcm b.degrees).vars.head? := by
  rw [firstVar?, FinSet.toList_eq fun v => ?_]
  rw [FinSet.contains_union, Bool.or_eq_true, hp.contains_nameSet, hq.contains_nameSet,
    Meadow.Poly.mem_vars_iff, Meadow.Poly.mem_vars_iff, Meadow.Monomial.mem_vars_iff,
    Meadow.Monomial.exponent_lcm, Meadow.Poly.exponent_degrees, Meadow.Poly.exponent_degrees,
    lt_max_iff]

/-- The loop of a content over the coefficients that are left. -/
def contentLoop (acc : Poly) (cs : List Poly) : Machine Poly :=
  cs.foldlM (fun acc c => if acc.isOne then pure acc else acc.gcd c) acc

/-- The stored counterpart of a call ends with what represents a polynomial. -/
def Simulates : Meadow.Poly.Call → Meadow.Poly → Prop
  | .gcd a b, g => ∀ {p q : Poly}, p.Represents a → q.Represents b →
      Ensures (p.gcd q) (·.Represents g)
  | .coefficients a cs, g => ∀ {p : Poly} {ps : List Poly}, p.Represents a →
      List.Forall₂ Represents ps cs → Ensures (contentLoop p ps) (·.Represents g)
  | .remainders v a b, g => ∀ {p q : Poly}, p.Represents a → q.Represents b →
      Ensures (primitiveRemainders v p q) (·.Represents g)

theorem Simulates.content {v : String} {c : Meadow.Poly}
    (h : Simulates (.content a v) c) (hp : p.Represents a) :
    Ensures (p.content v) (·.Represents c) := by
  rw [Poly.content]
  exact h represents_zero (hp.nonzeroCoefficientsIn v)

theorem Simulates.remaindersOf {v : String} {g : Meadow.Poly}
    (h : Simulates (.remaindersOf v a b) g) (hp : p.Represents a) (hq : q.Represents b)
    {f : Poly → Machine Poly} {P : Poly → Prop} (hf : ∀ r, r.Represents g → Ensures (f r) P) :
    Ensures (if p.degreeIn v < q.degreeIn v then primitiveRemainders v q p >>= f
      else primitiveRemainders v p q >>= f) P := by
  have hlt := (hp.degreeIn v).lt_iff (hq.degreeIn v)
  unfold Meadow.Poly.Call.remaindersOf at h
  split at h
  · next hdeg =>
    rw [if_pos (hlt.2 hdeg)]
    exact (h hq hp).bind hf
  · next hdeg =>
    rw [if_neg (mt hlt.1 hdeg)]
    exact (h hp hq).bind hf

/-- Where the greatest common divisor needs no recursion. -/
theorem simulates_constant {g : Meadow.Poly} (hg : Meadow.Poly.constantGcd? a b = some g) :
    Simulates (.gcd a b) g := by
  intro p q hp hq
  rw [Poly.gcd, hp.isZero, hq.isZero, hp.isConstant, hq.isConstant]
  unfold Meadow.Poly.constantGcd? at hg
  split at hg
  · next ha =>
    cases hg
    rw [if_pos ha]
    exact Machine.ensures_pure hq.normalized
  · next ha =>
    rw [if_neg ha]
    split at hg
    · next hb =>
      cases hg
      rw [if_pos hb]
      exact Machine.ensures_pure hp.normalized
    · next hb =>
      rw [if_neg hb]
      split at hg
      · next hconstant =>
        cases hg
        rw [if_pos hconstant]
        exact Machine.ensures_pure represents_one
      · cases hg

/-- Over a first variable the recursion goes on with what is free of it. -/
theorem gcd_eq_of_firstVar {v : String} (hp : p.Represents a) (hq : q.Represents b)
    (hv : Meadow.Poly.FirstVar a b v) :
    p.gcd q =
      if p.degreeIn v = 0 then do p.gcd (← q.content v)
      else if q.degreeIn v = 0 then do (← p.content v).gcd q
      else do
        let (contentP, primitiveP) ← p.splitContent v
        let (contentQ, primitiveQ) ← q.splitContent v
        let c ← contentP.gcd contentQ
        let r ←
          if primitiveP.degreeIn v < primitiveQ.degreeIn v then
            primitiveRemainders v primitiveQ primitiveP
          else primitiveRemainders v primitiveP primitiveQ
        return (← c.mul r).normalized := by
  obtain ⟨ha, hb, hconstant⟩ := Meadow.Poly.constantGcd?_eq_none hv.constantGcd?_eq
  rw [Poly.gcd, hp.isZero, hq.isZero, hp.isConstant, hq.isConstant,
    Meadow.Poly.isZero_eq_false_iff.2 ha, Meadow.Poly.isZero_eq_false_iff.2 hb, hconstant.1,
    hconstant.2, firstVar?_eq hp hq, hv.head?_eq]
  rfl

theorem simulates_of_returns {call : Meadow.Poly.Call} {g : Meadow.Poly}
    (h : Meadow.Poly.Returns call g) : Simulates call g := by
  induction h with
  | constant hg => exact simulates_constant hg
  | freeLeft hv ha _ _ ihc ihg =>
    intro p q hp hq
    rw [gcd_eq_of_firstVar hp hq hv, if_pos ((hp.degreeIn _).eq_zero_iff.2 ha)]
    exact (ihc.content hq).bind fun _ hc => ihg hp hc
  | freeRight hv ha hb _ _ ihc ihg =>
    intro p q hp hq
    rw [gcd_eq_of_firstVar hp hq hv, if_neg (mt (hp.degreeIn _).eq_zero_iff.1 ha),
      if_pos ((hq.degreeIn _).eq_zero_iff.2 hb)]
    exact (ihc.content hp).bind fun _ hc => ihg hc hq
  | split hv ha hb _ _ _ _ ihc ihd ihg ihr =>
    intro p q hp hq
    rw [gcd_eq_of_firstVar hp hq hv, if_neg (mt (hp.degreeIn _).eq_zero_iff.1 ha),
      if_neg (mt (hq.degreeIn _).eq_zero_iff.1 hb)]
    refine (ensures_splitContent hp (ihc.content hp)).bind fun s hs => ?_
    refine (ensures_splitContent hq (ihd.content hq)).bind fun t ht => ?_
    refine (ihg hs.1 ht.1).bind fun _ hg => ?_
    exact ihr.remaindersOf hs.2 ht.2 fun _ hr => (hg.mul hr).bind fun _ h =>
      Machine.ensures_pure h.normalized
  | noCoefficient acc =>
    intro p ps hp hps
    cases hps
    exact Machine.ensures_pure hp
  | skipCoefficient hacc _ ihg =>
    intro p ps hp hps
    cases hps with
    | cons _ hps =>
      have hone := hp.isOne.trans (Meadow.Poly.isOne_iff.2 hacc)
      rw [contentLoop, List.foldlM_cons, if_pos hone]
      exact ihg hp hps
  | coefficient hacc _ _ ihd ihg =>
    intro p ps hp hps
    cases hps with
    | cons hc hps =>
      have hone := hp.isOne ▸ mt Meadow.Poly.isOne_iff.1 hacc
      rw [contentLoop, List.foldlM_cons, if_neg hone]
      exact (ihd hp hc).bind fun _ hd => ihg hd hps
  | remainderZero hr hr0 _ ihc =>
    intro p q hp hq
    rw [primitiveRemainders]
    refine (hp.pseudoRemainder hr hq).bind fun r hr => ?_
    rw [if_pos (by rw [hr.isZero]; exact Meadow.Poly.isZero_iff.2 hr0)]
    exact (ensures_splitContent hq (ihc.content hq)).map fun _ hs => hs.2.normalized
  | remainderFree hr hr0 hfree =>
    intro p q hp hq
    rw [primitiveRemainders]
    refine (hp.pseudoRemainder hr hq).bind fun r hr => ?_
    rw [if_neg (by rw [hr.isZero]; exact mt Meadow.Poly.isZero_iff.1 hr0),
      if_pos ((hr.degreeIn _).eq_zero_iff.2 hfree)]
    exact Machine.ensures_pure represents_one
  | remainder hr hr0 hdeg _ _ ihc ihg =>
    intro p q hp hq
    rw [primitiveRemainders]
    refine (hp.pseudoRemainder hr hq).bind fun r hr => ?_
    rw [if_neg (by rw [hr.isZero]; exact mt Meadow.Poly.isZero_iff.1 hr0),
      if_neg (mt (hr.degreeIn _).eq_zero_iff.1 hdeg)]
    exact (ensures_splitContent hr (ihc.content hr)).bind fun _ hs => ihg hq hs.2

/-! ## The greatest common divisor -/

theorem Represents.gcd (hp : p.Represents a) (hq : q.Represents b) :
    Ensures (p.gcd q) (·.Represents (a.gcd b)) :=
  simulates_of_returns (Meadow.Poly.returns_gcd a b) hp hq

theorem Represents.content (h : p.Represents a) (v : String) :
    Ensures (p.content v) (·.Represents (a.content v)) := by
  have hover : Meadow.Poly.Over (v :: a.vars) a := fun x hx =>
    Meadow.Poly.over_vars a x fun hmem => hx (List.mem_cons_of_mem v hmem)
  have hreturns := Meadow.Poly.returns_content (Meadow.Poly.returnsOver a.vars) hover
  exact Simulates.content (simulates_of_returns hreturns) h

theorem Represents.splitContent (h : p.Represents a) (v : String) :
    Ensures (p.splitContent v) fun s => s.1.Represents (a.splitContent v).1 ∧
      s.2.Represents (a.splitContent v).2 :=
  ensures_splitContent h (h.content v)

/-- Unless an exponent overflows, the recursion ends with the canonical greatest common divisor of
what two stored polynomials represent.  It is zero only for two zeros, one exactly for coprime
polynomials, and depends neither on the order of the two nor on rational factors of either. -/
theorem gcd_greatest (hp : p.Represents a) (hq : q.Represents b) :
    Ensures (p.gcd q) fun r =>
      (∃ g, r.Represents g ∧ g ∣ a ∧ g ∣ b ∧ ∀ d, d ∣ a → d ∣ b → d ∣ g) ∧
      r.normalized = r ∧ (r.Canonical ∨ p = zero ∧ q = zero) ∧
      (r = zero ↔ p = zero ∧ q = zero) ∧ (r = one ↔ IsRelPrime a b) ∧
      (p = zero → r = q.normalized) ∧ (q = zero → r = p.normalized) ∧
      (∀ c : ℚ, c ≠ 0 → p = constant c ∨ q = constant c → r = one) ∧
      Ensures (q.gcd p) (· = r) ∧
      ∀ c : ℚ, c ≠ 0 →
        Ensures ((p.scale c).gcd q) (· = r) ∧ Ensures (p.gcd (q.scale c)) (· = r) := by
  obtain ⟨-, hleft, hright, hgreatest, hnormalized, hcanonical, hzero, hone, hzeroLeft, hzeroRight,
    hcomm, hunit⟩ := Meadow.Poly.gcd_canonical a b
  refine (hp.gcd hq).mono fun r hr => ⟨⟨_, hr, hleft, hright, hgreatest⟩,
    (hr.normalized.eq_iff hr).2 hnormalized, ?_, ?_, (hr.eq_iff represents_one).trans hone, ?_, ?_,
    fun c hc hpq => ?_, ?_, fun c hc => ⟨?_, ?_⟩⟩
  · rw [hr.canonical_iff, hp.eq_zero_iff, hq.eq_zero_iff]
    exact hcanonical
  · rw [hr.eq_zero_iff, hp.eq_zero_iff, hq.eq_zero_iff]
    exact hzero
  · intro h0
    rw [hr.eq_iff hq.normalized, hp.eq_zero_iff.1 h0]
    exact hzeroLeft
  · intro h0
    rw [hr.eq_iff hp.normalized, hq.eq_zero_iff.1 h0]
    exact hzeroRight
  · obtain ⟨hconstLeft, hconstRight, -⟩ := hunit c hc
    rw [hr.eq_iff represents_one]
    rcases hpq with rfl | rfl
    · rw [(hp.eq_iff (represents_constant c)).1 rfl]
      exact hconstLeft
    · rw [(hq.eq_iff (represents_constant c)).1 rfl]
      exact hconstRight
  · exact (hq.gcd hp).mono fun s hs => (hs.eq_iff hr).2 hcomm.symm
  · exact ((hp.scale c).gcd hq).mono fun s hs => (hs.eq_iff hr).2 (hunit c hc).2.2.1
  · exact (hp.gcd (hq.scale c)).mono fun s hs => (hs.eq_iff hr).2 (hunit c hc).2.2.2

/-- The greatest common divisor of `x ^ 2 - y ^ 2` and `x + y` is `x + y` in both builds. -/
theorem gcd_greatest_squares :
    ∃ a b g : Meadow.Poly, squares.Represents a ∧ (line 1).Represents b ∧ (line 1).Represents g ∧
      Returns (squares.gcd (line 1)) (line 1) ∧ g ∣ a ∧ g ∣ b ∧ (line 1).normalized = line 1 := by
  have hreturns : Returns (squares.gcd (line 1)) (line 1) := by decide_cbv
  obtain ⟨⟨g, hg, ha, hb, -⟩, hnormalized, -⟩ :=
    (gcd_greatest represents_squares (represents_line 1)).of_returns hreturns
  exact ⟨_, _, g, represents_squares, represents_line 1, hg, hreturns, ha, hb, hnormalized⟩

/-- The wrapping build takes `x + y ^ (2 ^ 31 + 1)` for a divisor of `x ^ 2 - y ^ 2`. -/
theorem gcd_wraps :
    ∃ a b : Meadow.Poly, squares.Represents a ∧ (line 0x80000001).Represents b ∧ ¬ b ∣ a ∧
      Overflows (squares.gcd (line 0x80000001)) ∧
      (squares.gcd (line 0x80000001)).value? .wrapping = some (line 0x80000001) :=
  ⟨_, _, represents_squares, represents_line 0x80000001, not_dvd_squares, by decide_cbv,
    by decide_cbv⟩

end Stored.Poly
end Meadow
