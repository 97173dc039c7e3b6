import Mathlib
import Meadow.Proofs.Poly.Associates
import Meadow.Proofs.Poly.LongDivision
import Meadow.Proofs.Stored.Poly

set_option autoImplicit false

/-!
# Products of stored polynomials

Products are formed monomial by monomial, and as long as no exponent overflows, different
monomials have different products with a third one.  So a product of stored polynomials
represents the product of the polynomials (`Stored.Poly.Represents.mul`); where an exponent
overflows, two terms may fall together or a term may be taken for a smaller one.
-/

namespace Meadow

open Machine (Ensures Returns Overflows)

namespace Poly

theorem mul_left_injective (m : Monomial) : Function.Injective fun k : Monomial => k.mul m := by
  intro k l h
  rw [← Monomial.lexCmp_eq_eq_iff, ← Monomial.lexCmp_mul_right k l m]
  exact Monomial.lexCmp_eq_eq_iff.2 h

/-- A product with a single term is the sum of the products of the terms, in any order. -/
theorem ofTerms_map_mul {ts : List (Monomial × ℚ)} {p : Poly} (h : ts.Perm p.terms)
    (m : Monomial) (c : ℚ) :
    ofTerms (ts.map fun t => (t.1.mul m, t.2 * c)) = p.mulTerm m c := by
  have hsum : (ts.map fun t => monomial t.1 t.2).sum = p :=
    (h.map _).sum_eq.trans (sum_terms p)
  have hterm (t : Monomial × ℚ) :
      monomial (t.1.mul m) (t.2 * c) = monomial m c * monomial t.1 t.2 := by
    rw [monomial_mul_monomial, Monomial.mul_comm, Rat.mul_comm t.2]
  rw [ofTerms_eq_sum, mulTerm_eq_mul, List.map_map, ← hsum, ← List.sum_map_mul_left]
  exact congrArg List.sum (List.map_congr_left fun t _ => hterm t)

/-- Adding terms one after the other is adding their sum. -/
theorem foldl_addTerm (ts : List (Monomial × ℚ)) (p : Poly) :
    ts.foldl (fun acc t => acc.addTerm t.1 t.2) p = p + ofTerms ts := by
  induction ts generalizing p with
  | nil => exact (add_zero p).symm
  | cons t ts ih =>
    rw [List.foldl_cons, ih, addTerm_eq, ofTerms_cons, addTerm_eq]
    ring

end Poly

namespace Stored.Poly

variable {p q : Poly} {a b : Meadow.Poly} {s : Monomial} {m : Meadow.Monomial}

/-! ## Terms in their places -/

/-- A term with a new monomial takes no other one's place. -/
theorem putTerm_eq_add {t : Monomial × ℚ} (h : p.coeff t.1 = 0) :
    p.putTerm t = (monomial t.1 t.2).add p := by
  have hnew (e : Monomial × ℚ) (he : e ∈ p.coeffs.entries) : t.1 ≠ e.1 := fun heq => by
    obtain ⟨hget, hne⟩ := FinSupp.mem_entries_iff.1 he
    rw [← heq] at hget
    exact hne (hget.symm.trans h)
  have hentries : ((FinSupp.single t.1 t.2).merge (fun new _ => new) p.coeffs).entries
      = ((FinSupp.single t.1 t.2).merge (· + ·) p.coeffs).entries := by
    unfold FinSupp.single
    split
    · rfl
    · refine Entries.merge_singleton_eq (fun e he hcmp => hnew e he ?_) _ _
      exact Std.LawfulEqCmp.eq_of_compare hcmp
  exact congrArg Poly.mk (FinSupp.ext_get fun k => congrArg (Entries.get 0 k) hentries)

theorem Represents.putTerm (h : p.Represents a) {t : Monomial × ℚ} {u : Meadow.Monomial × ℚ}
    (ht : TermRel t u) (hfree : a.coeff u.1 = 0) :
    (p.putTerm t).Represents (a.addTerm u.1 u.2) := by
  rw [putTerm_eq_add (h.coeff ht.1 ▸ hfree)]
  exact (represents_term ht).add h

theorem Represents.foldl_putTerm {ts : List (Monomial × ℚ)} {us : List (Meadow.Monomial × ℚ)}
    (hts : List.Forall₂ TermRel ts us) (hnodup : (us.map Prod.fst).Nodup) (h : p.Represents a)
    (hfree : ∀ u ∈ us, a.coeff u.1 = 0) :
    (ts.foldl Poly.putTerm p).Represents (us.foldl (fun acc u => acc.addTerm u.1 u.2) a) := by
  induction hts generalizing p a with
  | nil => exact h
  | @cons t u ts us ht hts ih =>
    obtain ⟨hu, hus⟩ := List.forall_mem_cons.1 hfree
    obtain ⟨hnotin, hnodup⟩ := List.nodup_cons.1 hnodup
    refine ih hnodup (h.putTerm ht hu) fun w hw => ?_
    have hne : u.1 ≠ w.1 := fun heq => hnotin (heq ▸ List.mem_map_of_mem hw)
    change ((Meadow.Poly.monomial u.1 u.2).add a).coeff w.1 = 0
    rw [Meadow.Poly.coeff_add, Meadow.Poly.coeff_monomial, if_neg hne, hus w hw, add_zero]

/-! ## Products -/

theorem ensures_mulTerms {ts : List (Monomial × ℚ)} {us : List (Meadow.Monomial × ℚ)}
    (hts : List.Forall₂ TermRel ts us) (hs : s.Represents m) (c : ℚ) :
    Ensures (mulTerms s c ts) (List.Forall₂ TermRel · (us.map fun u => (u.1.mul m, u.2 * c))) :=
  Ensures.mapM (fun ht => (ht.1.mul hs).map fun _ hk => ⟨hk, by rw [ht.2]⟩) hts

theorem Represents.mulTerm (h : p.Represents a) (hs : s.Represents m) (c : ℚ) :
    Ensures (p.mulTerm s c) (·.Represents (a.mulTerm m c)) := by
  unfold Poly.mulTerm
  split
  · next h0 =>
    refine Machine.ensures_pure ?_
    have hzero : a.mulTerm m c = .zero := by
      refine Meadow.Poly.toMv_injective ?_
      rw [h0, Meadow.Poly.toMv_mulTerm, MvPolynomial.monomial_zero, zero_mul,
        Meadow.Poly.toMv_zero]
    rw [hzero]
    exact represents_zero
  · refine (ensures_mulTerms h.listed hs c).map fun ts hts => ?_
    have hperm : a.listed.Perm a.terms := a.listed_perm
    rw [← Meadow.Poly.ofTerms_map_mul hperm]
    have hnodup : ((a.listed.map fun u => (u.1.mul m, u.2 * c)).map Prod.fst).Nodup := by
      have hkeys : (a.listed.map Prod.fst).Nodup :=
        (hperm.map _).nodup_iff.2 a.coeffs.nodup_keys
      rw [List.map_map]
      have := hkeys.map (Meadow.Poly.mul_left_injective m)
      rwa [List.map_map] at this
    have hput := represents_zero.foldl_putTerm hts hnodup fun _ _ => rfl
    rwa [Meadow.Poly.foldl_addTerm, Meadow.Poly.zero_def, zero_add] at hput

theorem Represents.mul (hp : p.Represents a) (hq : q.Represents b) :
    Ensures (p.mul q) (·.Represents (a.mul b)) := by
  refine Ensures.foldrM (S := Represents) (fun {t u} acc acc' ht hacc => ?_) hp represents_zero
  refine (ensures_mulTerms hq ht.1 t.2).map fun ts hts => ?_
  rw [ht.2] at hts
  rw [← Meadow.Poly.ofTerms_map_mul (List.Perm.refl _)]
  exact (represents_ofTerms hts).add hacc

theorem Represents.pow (h : p.Represents a) (n : ℕ) :
    Ensures (p.pow n) (·.Represents (a.pow n)) := by
  induction n with
  | zero => exact Machine.ensures_pure represents_one
  | succ n ih => exact ih.bind fun _ hr => hr.mul h

theorem Represents.foldlM_mul {ps : List Poly} {as : List Meadow.Poly}
    (hps : List.Forall₂ Represents ps as) (h : p.Represents a) :
    Ensures (ps.foldlM Poly.mul p) (·.Represents (as.foldl Meadow.Poly.mul a)) :=
  Ensures.foldlM (R := Represents) (S := Represents) (fun hacc hq => hacc.mul hq) hps h

theorem Represents.derivative (h : p.Represents a) (v : String) :
    Ensures (p.derivative v) (·.Represents (a.derivative v)) := by
  have hkept := rel_filter_and (R := TermRel) (p := fun t => t.1.exponent v != 0)
    (q := fun u => u.1.exponent v != 0) (fun ht => ?_) h
  · refine (Ensures.mapM (S := TermRel) (fun {t u} htu => ?_) hkept).map fun _ =>
      represents_ofTerms
    obtain ⟨ht, hne⟩ := htu
    have hexp := ht.1.exponent v
    have hpos : 1 ≤ u.1.exponent v := by
      rw [Nat.one_le_iff_ne_zero, Ne, ← hexp.eq_zero_iff]
      exact bne_iff_ne.1 hne
    have hpower := Monomial.represents_power v (hexp.sub (show Monomial.WordRel 1 1 from rfl) hpos)
    exact ((ht.1.without v).mul hpower).map fun _ hk => ⟨hk, by rw [ht.2, hexp]⟩
  · rw [Bool.eq_iff_iff, bne_iff_ne, bne_iff_ne]
    exact not_congr (ht.1.exponent v).eq_zero_iff

/-! ## One canonical associate -/

/-- Coprime integer coefficients, the leading one positive. -/
structure Canonical (p : Poly) : Prop where
  integral (s : Monomial) : ∃ n : ℤ, p.coeff s = n
  coprime (d : ℕ) (h : ∀ s, ∃ n : ℤ, p.coeff s = d * n) : d = 1
  pos : 0 < p.leadingCoeff

theorem Represents.canonical_iff (h : p.Represents a) : p.Canonical ↔ a.Canonical := by
  have hintegral := h.forall_coeff_iff (P := fun c => ∃ n : ℤ, c = n) ⟨0, Int.cast_zero.symm⟩
  have hmultiples (d : ℕ) := h.forall_coeff_iff (P := fun c => ∃ n : ℤ, c = d * n)
    ⟨0, by rw [Int.cast_zero, mul_zero]⟩
  constructor
  · rintro ⟨hint, hcoprime, hpos⟩
    exact ⟨hintegral.1 hint, fun d hd => hcoprime d ((hmultiples d).2 hd), h.leadingCoeff ▸ hpos⟩
  · rintro ⟨hint, hcoprime, hpos⟩
    exact ⟨hintegral.2 hint, fun d hd => hcoprime d ((hmultiples d).1 hd),
      h.leadingCoeff.symm ▸ hpos⟩

theorem Represents.eq_scale_iff (hp : p.Represents a) (hq : q.Represents b) :
    (∃ c : ℚ, c ≠ 0 ∧ q = p.scale c) ↔ ∃ c : ℚ, c ≠ 0 ∧ b = a.scale c :=
  exists_congr fun c => and_congr_right fun _ => hq.eq_iff (hp.scale c)

/-- The canonical associate of a stored polynomial other than zero is a rational multiple of it
with coprime integer coefficients, the leading one positive, and the only such multiple.  So
normalizing twice is normalizing once, and proper polynomials with the same canonical associate
are the rational multiples of each other.  The product of two canonical associates is its own,
unless an exponent overflows. -/
theorem normalized_only_canonical (hp : p.Proper) (h0 : p ≠ zero) :
    (∃ c : ℚ, c ≠ 0 ∧ p.normalized = p.scale c) ∧ p.normalized.Canonical ∧
      (∀ c : ℚ, (p.scale c).Canonical → p.scale c = p.normalized) ∧
      p.normalized.normalized = p.normalized ∧
      (∀ q : Poly, q.Proper → (p.normalized = q.normalized ↔ ∃ c : ℚ, c ≠ 0 ∧ q = p.scale c)) ∧
      ∀ q : Poly, q.Proper → Ensures (p.normalized.mul q.normalized) fun r => r.normalized = r := by
  obtain ⟨a, hp⟩ := proper_iff.1 hp
  obtain ⟨hscale, hcanonical, honly, hnormalized, heq, hmul⟩ :=
    Meadow.Poly.canonical_associate (mt hp.eq_zero_iff.2 h0)
  refine ⟨(hp.eq_scale_iff hp.normalized).2 hscale, hp.normalized.canonical_iff.2 hcanonical,
    fun c hc => ?_, (hp.normalized.normalized.eq_iff hp.normalized).2 hnormalized,
    fun q hq => ?_, fun q hq => ?_⟩
  · rw [(hp.scale c).eq_iff hp.normalized]
    exact honly c ((hp.scale c).canonical_iff.1 hc)
  · obtain ⟨b, hq⟩ := proper_iff.1 hq
    rw [hp.normalized.eq_iff hq.normalized, hp.eq_scale_iff hq]
    exact heq b
  · obtain ⟨b, hq⟩ := proper_iff.1 hq
    exact (hp.normalized.mul hq.normalized).mono fun r hr =>
      (hr.normalized.eq_iff hr).2 (hmul b)

/-- The canonical associate of `4 * y - 2 / 3 * x` is `x - 6 * y`, and so is the square of this
its own. -/
theorem normalized_only_canonical_thirds :
    let p := ((var "x").scale (-2 / 3)).add ((var "y").scale 4)
    p ≠ zero ∧ p.normalized = (var "x").sub ((var "y").scale 6) ∧ p.normalized.Canonical ∧
      ∃ r, Returns (p.normalized.mul p.normalized) r ∧ r.normalized = r := by
  intro p
  have hp : p.Represents (((Meadow.Poly.var "x").scale (-2 / 3)).add
      ((Meadow.Poly.var "y").scale 4)) :=
    ((represents_var "x").scale _).add ((represents_var "y").scale _)
  have h0 : p ≠ zero := by decide +kernel
  have hproper := proper_iff.2 ⟨_, hp⟩
  obtain ⟨-, hcanonical, -, -, -, hmul⟩ := normalized_only_canonical hproper h0
  have hsquare : Returns (p.normalized.mul p.normalized)
      (ofTerms [(⟨[("x", 2)]⟩, 1), (⟨[("x", 1), ("y", 1)]⟩, -12), (⟨[("y", 2)]⟩, 36)]) := by
    decide +kernel
  exact ⟨h0, by decide +kernel, hcanonical, _, hsquare, (hmul p hproper).of_returns hsquare⟩

/-- The product of `x ^ 2 ^ 31 - 1` and `x ^ 2 ^ 31 - 2` overflows.  In the wrapping build
`x ^ 2 ^ 31` leads it, with a negative coefficient. -/
theorem normalized_mul_wraps :
    let p := (monomial (.power "x" 0x80000000) 1).sub one
    let q := (monomial (.power "x" 0x80000000) 1).sub (constant 2)
    p.normalized = p ∧ q.normalized = q ∧ Overflows (p.mul q) ∧
      ((p.mul q).value? .wrapping).map leadingCoeff = some (-3) := by
  intro p q
  exact ⟨by decide +kernel, by decide +kernel, by decide +kernel, by decide +kernel⟩

end Stored.Poly
end Meadow
