import Mathlib
import Meadow.Proofs.Poly.Value
import Meadow.Proofs.Stored.Monomial
import Meadow.Stored.Poly

set_option autoImplicit false

/-!
# What stored polynomials represent

A stored polynomial represents the polynomial with the same coefficients of the monomials that
its own ones represent.  What is read from it is what is read from that polynomial, and all
operations that form no products of monomials do the same on both.
-/

namespace Meadow

open Machine (Ensures Returns)

/-- The members of a set of names are listed in increasing order. -/
theorem FinSet.toList_eq {s : FinSet String compare} {m : Monomial}
    (h : ∀ v, s.contains v = true ↔ v ∈ m.vars) : s.toList = m.vars := by
  have hperm : s.toList.Perm m.vars :=
    (List.perm_ext_iff_of_nodup s.nodup_keys m.exponents.nodup_keys).2 fun v =>
      FinSet.mem_toList_iff.trans (h v)
  have hasymm (v w : String) (hvw : compare v w = .lt) (hwv : compare w v = .lt) : v = w :=
    absurd (Std.TransCmp.lt_trans hvw hwv) (by simp [Std.ReflCmp.compare_self])
  exact hperm.eq_of_pairwise (fun v w _ _ => hasymm v w)
    (List.pairwise_map.2 s.sorted) (List.pairwise_map.2 m.exponents.sorted)

/-- A property of all values, if the value elsewhere has it. -/
theorem FinSupp.forall_get_iff {K V : Type} {cmp : K → K → Ordering} {zero : V} [DecidableEq K]
    [Std.TransCmp cmp] {f : FinSupp K V cmp zero} {P : V → Prop} (h0 : P zero) :
    (∀ k, P (f.get k)) ↔ ∀ v ∈ f.entries.map Prod.snd, P v := by
  constructor
  · intro h v hv
    obtain ⟨e, he, rfl⟩ := List.mem_map.1 hv
    rw [← (FinSupp.mem_entries_iff.1 he).1]
    exact h e.1
  · intro h k
    by_cases hk : f.get k = zero
    · rwa [hk]
    · exact h _ (List.mem_map_of_mem (FinSupp.mem_entries_iff.2 ⟨rfl, hk⟩))

namespace Stored

/-- The value of a stored monomial: the product of the powers of the variables' values. -/
def Monomial.value {K : Type*} [Field K] (v : String → K) (s : Monomial) : K :=
  (s.powers.map fun w => v w.1 ^ w.2.toNat).prod

theorem Monomial.Represents.value {K : Type*} [Field K] {s : Monomial} {m : Meadow.Monomial}
    (h : s.Represents m) (v : String → K) : s.value v = m.value v := by
  rw [Monomial.value, Meadow.Monomial.value, ← h, Monomial.numbers, List.map_map]
  rfl

namespace Poly

/-- Terms with related monomials and the same coefficient. -/
abbrev TermRel : Monomial × ℚ → Meadow.Monomial × ℚ → Prop :=
  EntryRel Monomial.Represents (· = ·)

/-- The stored polynomial has the terms of the polynomial. -/
def Represents (p : Poly) (a : Meadow.Poly) : Prop := List.Forall₂ TermRel p.terms a.terms

instance (p : Poly) (a : Meadow.Poly) : Decidable (p.Represents a) :=
  inferInstanceAs (Decidable (List.Forall₂ TermRel _ _))

theorem eq_zero_iff_of_eq {c d : ℚ} (h : c = d) : c = 0 ↔ d = 0 := by rw [h]

variable {p q : Poly} {a b : Meadow.Poly}

theorem Represents.related (h : p.Represents a) :
    p.coeffs.Related Monomial.Represents (· = ·) a.coeffs :=
  h

/-- Stored polynomials are equal exactly if they represent equal polynomials. -/
theorem Represents.eq_iff (hp : p.Represents a) (hq : q.Represents b) : p = q ↔ a = b := by
  have hleft : Relator.LeftUnique TermRel := fun s u t hst hut =>
    Prod.ext ((hst.1.eq_iff hut.1).2 rfl) (hst.2.trans hut.2.symm)
  have hright : Relator.RightUnique TermRel := fun s t u hst hsu =>
    Prod.ext ((hst.1.eq_iff hsu.1).1 rfl) (hst.2.symm.trans hsu.2)
  constructor
  · rintro rfl
    have hterms := List.right_unique_forall₂' hright hp hq
    exact Meadow.Poly.ext_coeff fun m => congrArg (Entries.get 0 m) hterms
  · rintro rfl
    have hterms := List.left_unique_forall₂' hleft hp hq
    have hcoeffs : p.coeffs = q.coeffs :=
      FinSupp.ext_get fun m => congrArg (Entries.get 0 m) hterms
    obtain ⟨f⟩ := p
    obtain ⟨g⟩ := q
    exact congrArg Poly.mk hcoeffs

/-! ## Reading -/

theorem Represents.coeff (h : p.Represents a) {s : Monomial} {m : Meadow.Monomial}
    (hs : s.Represents m) : p.coeff s = a.coeff m :=
  h.related.get (fun hk hl => hk.eq_iff hl) rfl hs

theorem Represents.size (h : p.Represents a) : p.size = a.size := List.Forall₂.length_eq h

theorem Represents.leadingTerm? (h : p.Represents a) :
    Option.Rel TermRel p.leadingTerm? a.leadingTerm? := by
  unfold Poly.leadingTerm? Meadow.Poly.leadingTerm?
  unfold Represents at h
  revert h
  generalize p.terms = ts
  generalize a.terms = us
  intro h
  cases h with
  | nil => exact .none
  | cons ht _ => exact .some ht

theorem Represents.leadingCoeff (h : p.Represents a) : p.leadingCoeff = a.leadingCoeff := by
  have hlead := h.leadingTerm?
  unfold Poly.leadingCoeff Meadow.Poly.leadingCoeff
  revert hlead
  generalize p.leadingTerm? = t
  generalize a.leadingTerm? = u
  intro hlead
  cases hlead with
  | none => rfl
  | some ht => exact ht.2

theorem isEmpty_eq {α β : Type} {R : α → β → Prop} {as : List α} {bs : List β}
    (h : List.Forall₂ R as bs) : as.isEmpty = bs.isEmpty := by
  cases h <;> rfl

theorem Represents.isZero (h : p.Represents a) : p.isZero = a.isZero := isEmpty_eq h

theorem Represents.isConstant (h : p.Represents a) : p.isConstant = a.isConstant :=
  rel_all (fun ht => ht.1.isOne) h

theorem Represents.constantValue? (h : p.Represents a) :
    p.constantValue? = a.constantValue? := by
  rw [Poly.constantValue?, Meadow.Poly.constantValue?, h.isConstant,
    h.coeff Monomial.represents_one]

theorem Represents.isOne (h : p.Represents a) : p.isOne = a.isOne := by
  unfold Poly.isOne Meadow.Poly.isOne
  rewrite [h.constantValue?]
  cases a.constantValue? <;> rfl

theorem Represents.asVariable? (h : p.Represents a) : p.asVariable? = a.asVariable? := by
  unfold Poly.asVariable? Meadow.Poly.asVariable?
  unfold Represents at h
  revert h
  generalize p.terms = ts
  generalize a.terms = us
  intro h
  cases h with
  | nil => rfl
  | @cons t u ts us ht hts =>
    cases hts with
    | cons _ _ => rfl
    | nil =>
      obtain ⟨s, c⟩ := t
      obtain ⟨m, d⟩ := u
      obtain ⟨hs, rfl⟩ := ht
      have hpowers := Monomial.represents_iff.1 hs
      revert hpowers
      dsimp only
      generalize s.powers = ps
      generalize m.powers = qs
      intro hpowers
      cases hpowers with
      | nil => rfl
      | @cons r r' ps qs hr hps =>
        cases hps with
        | cons _ _ => simp
        | nil =>
          obtain ⟨v, w⟩ := r
          obtain ⟨v', k⟩ := r'
          obtain ⟨rfl, hw⟩ := hr
          have hone : w = 1 ↔ k = 1 := hw.eq_iff rfl
          by_cases hk : k = 1
          · subst hk
            simp [hone.2 rfl]
          · simp [hone, hk]

theorem Represents.totalDegree (h : p.Represents a) :
    Ensures p.totalDegree (Monomial.WordRel · a.totalDegree) :=
  Ensures.foldrM (S := Monomial.WordRel)
    (fun ht hd => ht.1.degree.map fun _ hw => hw.max hd) h rfl

theorem Represents.degreeIn (h : p.Represents a) (v : String) :
    Monomial.WordRel (p.degreeIn v) (a.degreeIn v) :=
  List.rel_foldr (P := Monomial.WordRel) (fun _ _ ht _ _ hd => (ht.1.exponent v).max hd) rfl h

theorem Represents.contains_nameSet (h : p.Represents a) (v : String) :
    p.nameSet.contains v = true ↔ v ∈ a.vars := by
  have hnames : (p.terms.flatMap fun t => t.1.names) = a.terms.flatMap fun t => t.1.vars := by
    have hnames (t : Monomial × ℚ) (u : Meadow.Monomial × ℚ) (ht : TermRel t u) :
        List.Forall₂ (· = ·) t.1.names u.1.vars := by
      rw [List.forall₂_eq_eq_eq]
      exact ht.1.names
    have hrel : List.Forall₂ (· = ·) (p.terms.flatMap fun t => t.1.names)
        (a.terms.flatMap fun t => t.1.vars) := List.rel_flatMap h hnames
    rwa [List.forall₂_eq_eq_eq] at hrel
  rw [Poly.nameSet, FinSet.contains_ofList, hnames, Meadow.Poly.mem_vars_iff, ← not_iff_not,
    Nat.not_lt, Meadow.Poly.degreeIn, Meadow.Poly.foldr_max_le_iff, List.mem_flatMap, not_exists]
  refine forall_congr' fun t => ?_
  rw [not_and, Meadow.Monomial.mem_vars_iff, Nat.not_lt]

theorem Represents.vars (h : p.Represents a) : p.vars = a.vars :=
  FinSet.toList_eq h.contains_nameSet

theorem Represents.nameSet (h : p.Represents a) : p.nameSet = .ofList a.vars :=
  FinSet.ext_contains fun v => by rw [h.contains_nameSet, FinSet.contains_ofList]

theorem Represents.monomialContent (h : p.Represents a) :
    p.monomialContent.Represents a.monomialContent := by
  unfold Poly.monomialContent Meadow.Poly.monomialContent
  unfold Represents at h
  revert h
  generalize p.terms = ts
  generalize a.terms = us
  intro h
  cases h with
  | nil => exact Monomial.represents_one
  | cons ht hts => exact List.rel_foldl (fun _ _ hm _ _ hu => hm.gcd hu.1) ht.1 hts

/-! ## Values -/

/-- The value of a stored polynomial: the sum of the values of its terms. -/
def value {K : Type*} [Field K] (v : String → K) (p : Poly) : K :=
  (p.terms.map fun t => (t.2 : K) * t.1.value v).sum

theorem Represents.value {K : Type*} [Field K] (h : p.Represents a) (v : String → K) :
    p.value v = a.value v := by
  refine congrArg List.sum (List.forall₂_eq_eq_eq ▸ List.rel_map (fun t u ht => ?_) h)
  rw [ht.1.value, ht.2]

/-! ## Building -/

theorem represents_zero : zero.Represents .zero := .nil

theorem represents_monomial {s : Monomial} {m : Meadow.Monomial} (h : s.Represents m) (c : ℚ) :
    (monomial s c).Represents (.monomial m c) :=
  FinSupp.related_single (R := Monomial.Represents) (S := fun c d : ℚ => c = d)
    eq_zero_iff_of_eq h rfl

theorem represents_term {t : Monomial × ℚ} {u : Meadow.Monomial × ℚ} (h : TermRel t u) :
    (monomial t.1 t.2).Represents (.monomial u.1 u.2) :=
  h.2 ▸ represents_monomial h.1 t.2

theorem represents_constant (c : ℚ) : (constant c).Represents (.constant c) :=
  represents_monomial Monomial.represents_one c

theorem represents_one : one.Represents .one := represents_constant 1

theorem represents_var (v : String) : (var v).Represents (.var v) :=
  represents_monomial (Monomial.represents_power v rfl) 1

theorem Represents.add (hp : p.Represents a) (hq : q.Represents b) :
    (p.add q).Represents (a.add b) :=
  hp.related.merge eq_zero_iff_of_eq (fun hk hl => hl.lexCmp hk) (fun hc hd => hc ▸ hd ▸ rfl)
    hq.related

theorem Represents.scale (h : p.Represents a) (c : ℚ) : (p.scale c).Represents (a.scale c) :=
  h.related.mapVals (j := fun _ d => c * d) eq_zero_iff_of_eq fun _ hd => hd ▸ rfl

theorem Represents.neg (h : p.Represents a) : p.neg.Represents a.neg := h.scale (-1)

theorem Represents.sub (hp : p.Represents a) (hq : q.Represents b) :
    (p.sub q).Represents (a.sub b) :=
  hp.add hq.neg

theorem represents_ofTerms {ts : List (Monomial × ℚ)} {us : List (Meadow.Monomial × ℚ)}
    (h : List.Forall₂ TermRel ts us) : (ofTerms ts).Represents (.ofTerms us) :=
  List.rel_foldr (R := TermRel) (P := Represents)
    (fun _ _ ht _ _ hacc => (represents_term ht).add hacc) represents_zero h

/-! ## One variable singled out -/

theorem Represents.coefficientIn (h : p.Represents a) (v : String) {w : UInt32} {k : ℕ}
    (hw : Monomial.WordRel w k) : (p.coefficientIn v w).Represents (a.coefficientIn v k) := by
  refine represents_ofTerms (List.rel_map (fun t u ht => ⟨ht.1.without v, ht.2⟩)
    (rel_filter (fun ht => ?_) h))
  exact Bool.eq_iff_iff.2 (by
    rw [beq_iff_eq, beq_iff_eq]
    exact (ht.1.exponent v).eq_iff hw)

theorem Represents.leadingCoefficientIn (h : p.Represents a) (v : String) :
    (p.leadingCoefficientIn v).Represents (a.leadingCoefficientIn v) :=
  h.coefficientIn v (h.degreeIn v)

theorem Represents.eq_zero_iff (h : p.Represents a) : p = zero ↔ a = .zero :=
  h.eq_iff represents_zero

theorem Represents.expandIn (h : p.Represents a) (v : String) :
    (p.expandIn v).Related Monomial.WordRel Represents (a.expandIn v) := by
  refine List.rel_foldr (P := FinSupp.Related Monomial.WordRel Represents)
    (fun t u ht acc acc' hacc => ?_) FinSupp.related_empty h
  have hcmp {w x : UInt32} {k l : ℕ} (hw : Monomial.WordRel w k) (hx : Monomial.WordRel x l) :
      descending compare w x = descending compare k l := by
    change compare x w = compare l k
    rw [compare_toNat, hw, hx]
  have hterm : (monomial (t.1.without v) t.2).Represents (.monomial (u.1.without v) u.2) :=
    ht.2 ▸ represents_monomial (ht.1.without v) t.2
  refine FinSupp.Related.merge (R := Monomial.WordRel) (S := Represents) Represents.eq_zero_iff
    hcmp Represents.add ?_ hacc
  exact FinSupp.related_single (R := Monomial.WordRel) (S := Represents) Represents.eq_zero_iff
    (ht.1.exponent v) hterm

theorem Represents.coefficientsIn (h : p.Represents a) (v : String) :
    List.Forall₂ Represents (p.coefficientsIn v) (a.coefficientsIn v) := by
  rw [Poly.coefficientsIn, Meadow.Poly.coefficientsIn, ← show _ = a.degreeIn v from h.degreeIn v,
    List.forall₂_map_left_iff, List.forall₂_map_right_iff, List.forall₂_same]
  intro k hk
  have hlt : k < UInt32.size :=
    lt_of_le_of_lt (Nat.lt_succ_iff.1 (List.mem_range.1 hk)) (p.degreeIn v).toNat_lt
  exact h.coefficientIn v (UInt32.toNat_ofNat_of_lt' hlt)

theorem Represents.substituteZero (h : p.Represents a) (v : String) :
    (p.substituteZero v).Represents (a.substituteZero v) :=
  h.related.filter fun hk => Bool.eq_iff_iff.2 (by
    rw [beq_iff_eq, beq_iff_eq]
    exact (hk.exponent v).eq_zero_iff)

theorem Represents.divMonomial? (h : p.Represents a) {s : Monomial} {m : Meadow.Monomial}
    (hs : s.Represents m) : Option.Rel Represents (p.divMonomial? s) (a.divMonomial? m) := by
  have hterm {t : Monomial × ℚ} {u : Meadow.Monomial × ℚ} (ht : TermRel t u) :
      Option.Rel TermRel ((t.1.divide? s).map fun k => (k, t.2))
        ((u.1.divide? m).map fun k => (k, u.2)) :=
    rel_optionMap (fun hk => ⟨hk, ht.2⟩) (ht.1.divide? hs)
  exact rel_optionMap (R := List.Forall₂ TermRel) represents_ofTerms
    (rel_mapM (R := TermRel) hterm h)

/-! ## Canonical associates -/

theorem Represents.commonDenominator (h : p.Represents a) :
    p.commonDenominator = a.commonDenominator :=
  List.rel_foldr (P := fun d e : ℕ => d = e) (fun _ _ ht _ _ hd => by rw [ht.2, hd]) rfl h

theorem Represents.commonNumerator (h : p.Represents a) :
    p.commonNumerator = a.commonNumerator := by
  rw [Poly.commonNumerator, Meadow.Poly.commonNumerator, h.commonDenominator]
  exact List.rel_foldr (P := fun d e : ℕ => d = e) (fun _ _ ht _ _ hd => by rw [ht.2, hd]) rfl h

theorem Represents.normalizer (h : p.Represents a) : p.normalizer = a.normalizer := by
  rw [Poly.normalizer, Meadow.Poly.normalizer, h.commonDenominator, h.commonNumerator,
    h.leadingCoeff]

theorem Represents.normalized (h : p.Represents a) : p.normalized.Represents a.normalized := by
  rw [Poly.normalized, Meadow.Poly.normalized, h.isZero, h.normalizer]
  split
  · exact represents_zero
  · exact h.scale _

/-! ## Order and text -/

theorem Represents.listed (h : p.Represents a) : List.Forall₂ TermRel p.listed a.listed :=
  rel_mergeSort (fun hs ht => by rw [hs.1.cmp ht.1]) h

theorem Represents.cmp (hp : p.Represents a) (hq : q.Represents b) : p.cmp q = a.cmp b :=
  rel_compareLex (fun hs ht => by rw [termCmp, Term.cmp, hs.1.cmp ht.1, hs.2, ht.2])
    hp.listed hq.listed

theorem rel_writtenBefore {s t : UInt32 × Monomial × ℚ} {s' t' : Meadow.Monomial × ℚ}
    (hs : Monomial.WordRel s.1 s'.1.degree ∧ TermRel s.2 s')
    (ht : Monomial.WordRel t.1 t'.1.degree ∧ TermRel t.2 t') :
    writtenBefore s t = Meadow.Poly.writtenBefore s' t' := by
  rw [writtenBefore, Meadow.Poly.writtenBefore, compare_toNat, hs.1, ht.1, ht.2.1.lexCmp hs.2.1]

theorem Represents.written (h : p.Represents a) :
    Ensures p.written (List.Forall₂ TermRel · (a.terms.mergeSort Meadow.Poly.writtenBefore)) := by
  unfold Poly.written
  exact Ensures.sortKeyed (R := TermRel) (K := fun w u => Monomial.WordRel w u.1.degree)
    (fun ht => ht.1.degree) rel_writtenBefore h

theorem rel_renderMagnitude {t : Monomial × ℚ} {u : Meadow.Monomial × ℚ} (h : TermRel t u) :
    renderMagnitude t = Meadow.Poly.renderMagnitude u := by
  rw [renderMagnitude, Meadow.Poly.renderMagnitude, h.2, h.1.isOne, h.1.render]

theorem Represents.render (h : p.Represents a) : Ensures p.render (· = a.render) := by
  refine h.written.bind fun ts hts => ?_
  unfold Meadow.Poly.render
  generalize a.terms.mergeSort Meadow.Poly.writtenBefore = us at hts
  cases hts with
  | nil => exact Machine.ensures_pure rfl
  | @cons t u ts us ht hts =>
    have hrest : ts.map renderNext = us.map Meadow.Poly.renderNext := by
      rw [← List.forall₂_eq_eq_eq, List.forall₂_map_left_iff, List.forall₂_map_right_iff]
      exact hts.imp fun s s' hs => by
        rw [renderNext, Meadow.Poly.renderNext, hs.2, rel_renderMagnitude hs]
    refine Machine.ensures_pure ?_
    rw [ht.2, rel_renderMagnitude ht, hrest]

/-! ## Proper polynomials -/

/-- The sum of sorted terms lists these terms. -/
theorem terms_ofTerms {ts : List (Monomial × ℚ)}
    (hs : Entries.Sorted (descending Monomial.lexCmp) ts) (hn : Entries.Nonzero 0 ts) :
    (ofTerms ts).terms = ts := by
  induction ts with
  | nil => rfl
  | cons t ts ih =>
    obtain ⟨hbelow, hs⟩ := List.pairwise_cons.1 hs
    obtain ⟨ht, hn⟩ := List.forall_mem_cons.1 hn
    have hsingle : (monomial t.1 t.2).terms = [t] := by
      change (FinSupp.single t.1 t.2).entries = [t]
      rw [FinSupp.single, dif_neg ht]
    change Entries.merge _ 0 (· + ·) (monomial t.1 t.2).terms (ofTerms ts).terms = t :: ts
    rw [hsingle, ih hs hn]
    cases ts with
    | nil => rfl
    | cons u us =>
      rw [Entries.merge, Entries.mergeInto, hbelow u List.mem_cons_self]
      rfl

/-- The monomials are proper. -/
def Proper (p : Poly) : Prop := ∀ t ∈ p.terms, t.1.Proper

/-- The stored polynomials that represent one are the proper ones. -/
theorem proper_iff : p.Proper ↔ ∃ a, p.Represents a := by
  constructor
  · intro h
    choose k hk using fun t : {t // t ∈ p.terms} => Monomial.proper_iff.1 (h t.1 t.2)
    let us : List (Meadow.Monomial × ℚ) := p.terms.attach.map fun t => (k t, t.1.2)
    have hus : List.Forall₂ TermRel p.terms us := by
      rw [← p.terms.attach_map_subtype_val, List.forall₂_map_left_iff, List.forall₂_map_right_iff,
        List.forall₂_same]
      exact fun t _ => ⟨hk t, rfl⟩
    have hterms : (ofTerms p.terms).terms = p.terms :=
      terms_ofTerms p.coeffs.sorted p.coeffs.nonzero
    refine ⟨.ofTerms us, ?_⟩
    rw [Represents, ← hterms]
    exact represents_ofTerms hus
  · rintro ⟨a, h⟩
    have hproper : List.Forall₂ (fun t u => t.1.Proper ∧ TermRel t u) p.terms a.terms :=
      h.imp fun _ _ ht => ⟨Monomial.proper_iff.2 ⟨_, ht.1⟩, ht⟩
    exact ((List.forall₂_and_left _ _).1 hproper).1

/-- A property of zero and of all coefficients. -/
theorem Represents.forall_coeff_iff (h : p.Represents a) {P : ℚ → Prop} (h0 : P 0) :
    (∀ s, P (p.coeff s)) ↔ ∀ m, P (a.coeff m) := by
  have hvalues : p.terms.map Prod.snd = a.terms.map Prod.snd := by
    rw [← List.forall₂_eq_eq_eq, List.forall₂_map_left_iff, List.forall₂_map_right_iff]
    exact h.imp fun _ _ ht => ht.2
  have hleft : (∀ s, P (p.coeff s)) ↔ ∀ c ∈ p.terms.map Prod.snd, P c :=
    FinSupp.forall_get_iff (f := p.coeffs) h0
  have hright : (∀ m, P (a.coeff m)) ↔ ∀ c ∈ a.terms.map Prod.snd, P c :=
    FinSupp.forall_get_iff (f := a.coeffs) h0
  rw [hleft, hright, hvalues]

end Poly
end Stored
end Meadow
