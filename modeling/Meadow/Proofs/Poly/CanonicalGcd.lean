import Mathlib
import Meadow.Proofs.Poly.Radical

set_option autoImplicit false

/-!
# The recursion for greatest common divisors

The greatest common divisor is found by a recursion over the first variable of either
polynomial, with contents, which are greatest common divisors themselves, and with a
sequence of pseudo-remainders.  Nothing limits the depth of the recursion or the length of
the sequences; `Poly.Returns` says what a call returns after finitely many steps.  A call
for a greatest common divisor does return (`Poly.returns_gcd`): the calls for contents are
about fewer variables, and the remainders have falling degrees in the first variable.  It
returns nothing but `gcd`, the canonical one (`Poly.Returns.unique`).
-/

namespace Meadow

namespace Poly

/-! ## Canonical greatest common divisors -/

theorem normalized_eq_of_associated {p q : Poly} (h : Associated p q) :
    p.normalized = q.normalized := by
  by_cases hp : p = 0
  · rw [hp, h.eq_zero_iff.1 hp]
  · have hq : q ≠ 0 := fun hq => hp (h.eq_zero_iff.2 hq)
    exact (canonical_normalized hp).eq_of_associated (canonical_normalized hq)
      ((associated_normalized p).symm.trans (h.trans (associated_normalized q)))

@[simp] theorem normalized_normalized (p : Poly) : p.normalized.normalized = p.normalized :=
  normalized_eq_of_associated (associated_normalized p).symm

@[simp] theorem normalized_one : (1 : Poly).normalized = 1 :=
  (canonical_normalized one_ne_zero).eq_of_associated canonical_one
    (associated_normalized 1).symm

theorem normalized_of_isUnit {p : Poly} (h : IsUnit p) : p.normalized = 1 := by
  rw [normalized_eq_of_associated (associated_one_iff_isUnit.2 h), normalized_one]

theorem normalized_gcdOver (vs : List String) (a b : Poly) :
    (gcdOver vs a b).normalized = gcdOver vs a b := by
  have hone : one.normalized = one := normalized_one
  induction vs generalizing a b with
  | nil =>
    unfold gcdOver
    repeat' split
    · exact normalized_normalized b
    · exact normalized_normalized a
    · exact hone
  | cons v vs ih =>
    unfold gcdOver
    repeat' split
    · exact normalized_normalized b
    · exact normalized_normalized a
    · exact hone
    · exact ih _ _
    · exact ih _ _
    · exact ih _ _
    · exact normalized_normalized _

@[simp] theorem normalized_gcd (a b : Poly) : (gcd a b).normalized = gcd a b :=
  normalized_gcdOver _ a b

/-- There is one greatest common divisor that is its own canonical associate. -/
theorem IsGcd.eq_gcd {g a b : Poly} (h : IsGcd g a b) (hg : g.normalized = g) :
    g = gcd a b := by
  have hassoc : Associated g (gcd a b) :=
    associated_of_dvd_dvd ((isGcd_gcd a b g).2 ((h g).1 dvd_rfl))
      ((h (gcd a b)).2 ((isGcd_gcd a b _).1 dvd_rfl))
  rw [← hg, normalized_eq_of_associated hassoc, normalized_gcd]

theorem findsGcd_gcd (vs : List String) : FindsGcd vs gcd := fun a b _ _ => isGcd_gcd a b

theorem gcd_zero_left (b : Poly) : gcd 0 b = b.normalized :=
  ((isGcd_zero_left b).normalized.eq_gcd (normalized_normalized b)).symm

theorem gcd_comm (a b : Poly) : gcd a b = gcd b a :=
  (isGcd_gcd a b).symm.eq_gcd (normalized_gcd a b)

theorem gcd_zero_right (a : Poly) : gcd a 0 = a.normalized := by
  rw [gcd_comm, gcd_zero_left]

theorem gcd_eq_one_of_isUnit {a : Poly} (ha : IsUnit a) (b : Poly) : gcd a b = 1 :=
  ((isGcd_one_of_isUnit ha b).eq_gcd normalized_one).symm

theorem gcd_eq_one_iff {a b : Poly} : gcd a b = 1 ↔ IsRelPrime a b := by
  constructor
  · intro h d ha hb
    have hd := (isGcd_gcd a b d).2 ⟨ha, hb⟩
    rw [h] at hd
    exact isUnit_of_dvd_one hd
  · intro h
    rw [← normalized_gcd]
    exact normalized_of_isUnit (h (isGcd_gcd a b).dvd_left (isGcd_gcd a b).dvd_right)

theorem gcd_eq_zero_iff {a b : Poly} : gcd a b = 0 ↔ a = 0 ∧ b = 0 := by
  have h := isGcd_gcd a b 0
  rwa [zero_dvd_iff, zero_dvd_iff, zero_dvd_iff] at h

theorem gcd_eq_of_associated {a a' : Poly} (h : Associated a a') (b : Poly) :
    gcd a b = gcd a' b := by
  refine IsGcd.eq_gcd (fun d => ?_) (normalized_gcd a b)
  rw [isGcd_gcd a b d, h.dvd_iff_dvd_right]

theorem gcd_scale {c : ℚ} (hc : c ≠ 0) (a b : Poly) : gcd (a.scale c) b = gcd a b := by
  rw [scale_eq_mul]
  exact gcd_eq_of_associated (associated_unit_mul_left a _ (isUnit_constant hc)) b

/-! ## The recursion -/

/-- Pseudo-division by `h` over a variable leads from a polynomial to a remainder: as long
as it is not zero and its degree not below that of `h`, its highest power is cancelled. -/
inductive Reduces (v : String) (h : Poly) : Poly → Poly → Prop
  | done {r : Poly} (hr : r = 0 ∨ r.degreeIn v < h.degreeIn v) : Reduces v h r r
  | cancel {r s : Poly} (hr : r ≠ 0) (hdeg : h.degreeIn v ≤ r.degreeIn v)
      (hrest : Reduces v h (((h.leadingCoefficientIn v).mul r).sub
        (((r.leadingCoefficientIn v).mulTerm (.power v (r.degreeIn v - h.degreeIn v)) 1).mul h))
        s) : Reduces v h r s

/-- Calls of the recursion: for a greatest common divisor, for that of an intermediate
result and the coefficients behind it, and for the end of a sequence of remainders. -/
inductive Call where
  | gcd (a b : Poly)
  | coefficients (acc : Poly) (cs : List Poly)
  | remainders (v : String) (f h : Poly)

/-- The call for the content over a variable. -/
def Call.content (p : Poly) (v : String) : Call :=
  .coefficients zero ((p.coefficientsIn v).filter fun c => !c.isZero)

/-- The call for the remainders of two polynomials, the one of the higher degree first. -/
def Call.remaindersOf (v : String) (p q : Poly) : Call :=
  if p.degreeIn v < q.degreeIn v then .remainders v q p else .remainders v p q

/-- A polynomial split by its content over a variable. -/
def splitBy (content p : Poly) : Poly × Poly :=
  if content.isZero || content.isOne then (one, p) else (content, (p.divExact? content).getD p)

/-- The greatest common divisor where no recursion is needed: one of the polynomials is
constant. -/
def constantGcd? (a b : Poly) : Option Poly :=
  if a.isZero then some b.normalized
  else if b.isZero then some a.normalized
  else if a.isConstant || b.isConstant then some one
  else none

/-- The first variable of two polynomials neither of which is constant. -/
structure FirstVar (a b : Poly) (v : String) : Prop where
  constantGcd?_eq : constantGcd? a b = none
  head?_eq : (a.degrees.lcm b.degrees).vars.head? = some v

/-- A call of the recursion returns a polynomial. -/
inductive Returns : Call → Poly → Prop
  | constant {a b g : Poly} (hg : constantGcd? a b = some g) : Returns (.gcd a b) g
  | freeLeft {a b c g : Poly} {v : String} (hv : FirstVar a b v) (ha : a.degreeIn v = 0)
      (hc : Returns (.content b v) c) (hg : Returns (.gcd a c) g) : Returns (.gcd a b) g
  | freeRight {a b c g : Poly} {v : String} (hv : FirstVar a b v) (ha : a.degreeIn v ≠ 0)
      (hb : b.degreeIn v = 0) (hc : Returns (.content a v) c) (hg : Returns (.gcd c b) g) :
      Returns (.gcd a b) g
  | split {a b c d g r : Poly} {v : String} (hv : FirstVar a b v) (ha : a.degreeIn v ≠ 0)
      (hb : b.degreeIn v ≠ 0) (hc : Returns (.content a v) c) (hd : Returns (.content b v) d)
      (hg : Returns (.gcd (splitBy c a).1 (splitBy d b).1) g)
      (hr : Returns (.remaindersOf v (splitBy c a).2 (splitBy d b).2) r) :
      Returns (.gcd a b) (g.mul r).normalized
  | noCoefficient (acc : Poly) : Returns (.coefficients acc []) acc
  | skipCoefficient {acc c g : Poly} {cs : List Poly} (hacc : acc = 1)
      (hg : Returns (.coefficients acc cs) g) : Returns (.coefficients acc (c :: cs)) g
  | coefficient {acc c d g : Poly} {cs : List Poly} (hacc : acc ≠ 1)
      (hd : Returns (.gcd acc c) d) (hg : Returns (.coefficients d cs) g) :
      Returns (.coefficients acc (c :: cs)) g
  | remainderZero {v : String} {f h r c : Poly} (hr : Reduces v h f r) (hr0 : r = 0)
      (hc : Returns (.content h v) c) : Returns (.remainders v f h) (splitBy c h).2.normalized
  | remainderFree {v : String} {f h r : Poly} (hr : Reduces v h f r) (hr0 : r ≠ 0)
      (hfree : r.degreeIn v = 0) : Returns (.remainders v f h) 1
  | remainder {v : String} {f h r c g : Poly} (hr : Reduces v h f r) (hr0 : r ≠ 0)
      (hdeg : r.degreeIn v ≠ 0) (hc : Returns (.content r v) c)
      (hg : Returns (.remainders v h (splitBy c r).2) g) : Returns (.remainders v f h) g

/-! ## What is returned is determined -/

theorem Reduces.unique {v : String} {h r s t : Poly} (hs : Reduces v h r s)
    (ht : Reduces v h r t) : s = t := by
  induction hs with
  | done hr =>
    cases ht with
    | done _ => rfl
    | cancel hr' hdeg _ => exact absurd hdeg (not_le.2 (hr.resolve_left hr'))
  | cancel hr hdeg _ ih =>
    cases ht with
    | done hr' => exact absurd hdeg (not_le.2 (hr'.resolve_left hr))
    | cancel _ _ hrest => exact ih hrest

theorem FirstVar.unique {a b : Poly} {v w : String} (hv : FirstVar a b v)
    (hw : FirstVar a b w) : v = w :=
  Option.some.inj (hv.head?_eq.symm.trans hw.head?_eq)

theorem FirstVar.constantGcd?_ne {a b g : Poly} {v : String} (hv : FirstVar a b v) :
    constantGcd? a b ≠ some g := by
  rw [hv.constantGcd?_eq]
  exact nofun

theorem Returns.unique {call : Call} {g g' : Poly} (h : Returns call g) (h' : Returns call g') :
    g = g' := by
  induction h generalizing g' with
  | constant hg =>
    cases h' with
    | constant hg' => exact Option.some.inj (hg.symm.trans hg')
    | freeLeft hv _ _ _ | freeRight hv _ _ _ _ | split hv _ _ _ _ _ _ =>
      exact absurd hg hv.constantGcd?_ne
  | freeLeft hv ha _ _ ihc ihg =>
    cases h' with
    | constant hg' => exact absurd hg' hv.constantGcd?_ne
    | freeLeft hv' _ hc' hg' =>
      cases hv.unique hv'
      cases ihc hc'
      exact ihg hg'
    | freeRight hv' ha' _ _ _ | split hv' ha' _ _ _ _ _ =>
      cases hv.unique hv'
      exact absurd ha ha'
  | freeRight hv ha hb _ _ ihc ihg =>
    cases h' with
    | constant hg' => exact absurd hg' hv.constantGcd?_ne
    | freeLeft hv' ha' _ _ =>
      cases hv.unique hv'
      exact absurd ha' ha
    | freeRight hv' _ _ hc' hg' =>
      cases hv.unique hv'
      cases ihc hc'
      exact ihg hg'
    | split hv' _ hb' _ _ _ _ =>
      cases hv.unique hv'
      exact absurd hb hb'
  | split hv ha hb _ _ _ _ ihc ihd ihg ihr =>
    cases h' with
    | constant hg' => exact absurd hg' hv.constantGcd?_ne
    | freeLeft hv' ha' _ _ =>
      cases hv.unique hv'
      exact absurd ha' ha
    | freeRight hv' _ hb' _ _ =>
      cases hv.unique hv'
      exact absurd hb' hb
    | split hv' _ _ hc' hd' hg' hr' =>
      cases hv.unique hv'
      cases ihc hc'
      cases ihd hd'
      rw [ihg hg', ihr hr']
  | noCoefficient acc =>
    cases h' with
    | noCoefficient _ => rfl
  | skipCoefficient hacc _ ih =>
    cases h' with
    | skipCoefficient _ hg' => exact ih hg'
    | coefficient hacc' _ _ => exact absurd hacc hacc'
  | coefficient hacc _ _ ihd ihg =>
    cases h' with
    | skipCoefficient hacc' _ => exact absurd hacc' hacc
    | coefficient _ hd' hg' =>
      cases ihd hd'
      exact ihg hg'
  | remainderZero hr hr0 _ ih =>
    cases h' with
    | remainderZero _ _ hc' => rw [ih hc']
    | remainderFree hr' hr0' _ | remainder hr' hr0' _ _ _ =>
      exact absurd (hr.unique hr' ▸ hr0) hr0'
  | remainderFree hr hr0 hfree =>
    cases h' with
    | remainderZero hr' hr0' _ => exact absurd (hr'.unique hr ▸ hr0') hr0
    | remainderFree _ _ _ => rfl
    | remainder hr' _ hdeg' _ _ => exact absurd (hr.unique hr' ▸ hfree) hdeg'
  | remainder hr hr0 hdeg _ _ ihc ihg =>
    cases h' with
    | remainderZero hr' hr0' _ => exact absurd (hr'.unique hr ▸ hr0') hr0
    | remainderFree hr' _ hfree' => exact absurd (hr'.unique hr ▸ hfree') hdeg
    | remainder hr' _ _ hc' hg' =>
      cases hr.unique hr'
      cases ihc hc'
      exact ihg hg'

/-! ## Every call for a greatest common divisor returns -/

/-- Pseudo-division comes to an end: every cancellation lowers the degree. -/
theorem reduces_pseudoRemainder {v : String} {h : Poly} (hpos : 0 < h.degreeIn v) {steps : ℕ}
    {r : Poly} (hsteps : r.degreeIn v < h.degreeIn v + steps) :
    Reduces v h r (pseudoRemainder v h steps r) := by
  have hh : h ≠ 0 := by
    rintro rfl
    exact absurd hpos (lt_irrefl 0)
  induction steps generalizing r with
  | zero => exact .done (Or.inr hsteps)
  | succ steps ih =>
    unfold pseudoRemainder
    split
    · next hdone =>
      rw [Bool.or_eq_true, isZero_iff, decide_eq_true_eq] at hdone
      exact .done hdone
    · next hopen =>
      rw [Bool.or_eq_true, isZero_iff, decide_eq_true_eq, not_or, not_lt] at hopen
      refine .cancel hopen.1 hopen.2 (ih ?_)
      have hlt := degreeIn_cancel_lt hopen.1 hh hopen.2
      rw [leadingCoefficientIn_mulTerm_mul, mul_def, sub_def]
      set next := h.leadingCoefficientIn v * r - r.leadingCoefficientIn v
        * monomial (.power v (r.degreeIn v - h.degreeIn v)) 1 * h
      by_cases h0 : next = 0
      · rw [h0, degreeIn_zero]
        omega
      · have := hlt h0
        omega

/-- Calls for the greatest common divisor of polynomials in given variables return. -/
def ReturnsOver (vs : List String) : Prop :=
  ∀ a b, Over vs a → Over vs b → Returns (.gcd a b) (gcd a b)

/-- What is made of the coefficients one after the other. -/
def gcdOfAll (acc : Poly) (cs : List Poly) : Poly :=
  cs.foldl (fun acc c => if acc.isOne then acc else gcd acc c) acc

theorem normalized_gcdOfAll {acc : Poly} (hacc : acc.normalized = acc) (cs : List Poly) :
    (gcdOfAll acc cs).normalized = gcdOfAll acc cs := by
  induction cs generalizing acc with
  | nil => exact hacc
  | cons c cs ih =>
    rw [gcdOfAll, List.foldl_cons]
    split
    · exact ih hacc
    · exact ih (normalized_gcd acc c)

theorem normalized_content (p : Poly) (v : String) :
    (content p v).normalized = content p v := by
  have heq : content p v = gcdOfAll 0 ((p.expandIn v).entries.map Prod.snd) := by
    rw [gcdOfAll, List.foldl_map]
    rfl
  rw [heq, normalized_gcdOfAll normalized_zero]

theorem returns_gcdOfAll {vs : List String} (hvs : ReturnsOver vs) {acc : Poly}
    (hacc : Over vs acc) {cs : List Poly} (hcs : ∀ c ∈ cs, Over vs c) :
    Returns (.coefficients acc cs) (gcdOfAll acc cs) := by
  induction cs generalizing acc with
  | nil => exact .noCoefficient acc
  | cons c cs ih =>
    obtain ⟨hc, hrest⟩ := List.forall_mem_cons.1 hcs
    rw [gcdOfAll, List.foldl_cons]
    split
    · next hone => exact .skipCoefficient (isOne_iff.1 hone) (ih hacc hrest)
    · next hone =>
      exact .coefficient (fun h => hone (isOne_iff.2 h)) (hvs acc c hacc hc)
        (ih (hacc.of_isGcd hc (isGcd_gcd acc c)) hrest)

section Content

variable {vs : List String} {v : String} {p : Poly}

theorem forall_mem_coefficientsIn_iff (P : Poly → Prop) (hP : P 0) :
    (∀ c ∈ (p.coefficientsIn v).filter fun c => !c.isZero, P c) ↔
      ∀ i, P (p.coefficientIn v i) := by
  constructor
  · intro h i
    by_cases h0 : p.coefficientIn v i = 0
    · rwa [h0]
    · have hi : i < p.degreeIn v + 1 := by
        by_contra hi
        exact h0 (coefficientIn_eq_zero_of_lt (by omega))
      refine h _ (List.mem_filter.2 ⟨List.mem_map.2 ⟨i, List.mem_range.2 hi, rfl⟩, ?_⟩)
      rw [isZero_eq_false_iff.2 h0, Bool.not_false]
  · intro h c hc
    obtain ⟨i, -, rfl⟩ := List.mem_map.1 (List.mem_filter.1 hc).1
    exact h i

/-- The content is the same whether the coefficients are taken from the lowest power or from
the highest one. -/
theorem gcdOfAll_coefficientsIn (hp : Over (v :: vs) p) :
    gcdOfAll 0 ((p.coefficientsIn v).filter fun c => !c.isZero) = content p v := by
  have hover := (forall_mem_coefficientsIn_iff (Over vs) Over.zero).2 fun i =>
    hp.coefficientIn_tail i
  set cs := (p.coefficientsIn v).filter fun c => !c.isZero with hcs
  have hdvd (d : Poly) : d ∣ gcdOfAll 0 cs ↔ d ∣ content p v := by
    have hpairs : gcdOfAll 0 cs = (cs.map (Prod.mk ())).foldl
        (fun acc e => if acc.isOne then acc else gcd acc e.2) 0 := by
      rw [List.foldl_map]
      rfl
    have hall : ∀ e ∈ cs.map (Prod.mk ()), Over vs e.2 := by
      rw [List.forall_mem_map]
      exact hover
    rw [hpairs, dvd_foldl_gcd_iff (findsGcd_gcd vs) hall Over.zero, List.forall_mem_map,
      and_iff_right (dvd_zero d), forall_mem_coefficientsIn_iff _ (dvd_zero d)]
    exact (dvd_contentBy_iff (findsGcd_gcd vs) hp d).symm
  have hassoc : Associated (gcdOfAll 0 cs) (content p v) :=
    associated_of_dvd_dvd ((hdvd _).1 dvd_rfl) ((hdvd _).2 dvd_rfl)
  rw [← normalized_gcdOfAll normalized_zero cs, normalized_eq_of_associated hassoc,
    normalized_content]

theorem returns_content (hvs : ReturnsOver vs) (hp : Over (v :: vs) p) :
    Returns (.content p v) (content p v) := by
  rw [← gcdOfAll_coefficientsIn hp]
  exact returns_gcdOfAll hvs Over.zero ((forall_mem_coefficientsIn_iff (Over vs) Over.zero).2
    fun i => hp.coefficientIn_tail i)

theorem isSplit_splitBy (hp : Over (v :: vs) p) (h0 : p ≠ 0) :
    IsSplit v p (splitBy (content p v) p).1 (splitBy (content p v) p).2 :=
  isSplit_splitContentBy (findsGcd_gcd vs) hp h0

end Content

/-- The remainders come to an end at the greatest common divisor, by induction on the degree
of the divisor. -/
theorem exists_returns_remainders {vs : List String} {v : String} (hvs : ReturnsOver vs)
    {f h : Poly} (hf : Over (v :: vs) f) (hh : Over (v :: vs) h) (hprimitive : PrimitiveIn v h)
    (hpos : 0 < h.degreeIn v) :
    ∃ g, Returns (.remainders v f h) g ∧ IsGcd g f h ∧ g.normalized = g := by
  induction hd : h.degreeIn v using Nat.strong_induction_on generalizing f h with
  | _ d ih =>
    have hsteps : f.degreeIn v < h.degreeIn v + (f.degreeIn v + 1) := by omega
    have hreduces := reduces_pseudoRemainder hpos hsteps
    obtain ⟨hover, hdeg, c, s, hc, hc0, heq⟩ :=
      exists_pseudoRemainder hpos hh List.mem_cons_self hf hsteps
    set r := pseudoRemainder v h (f.degreeIn v + 1) f
    by_cases hr : r = 0
    · rw [hr, add_zero] at heq
      refine ⟨_, .remainderZero hreduces hr (returns_content hvs hh), ?_,
        normalized_normalized _⟩
      exact (isGcd_of_remainder_eq_zero hprimitive hc hc0 heq).of_associated
        (associated_primitiveBy (findsGcd_gcd vs) hh hprimitive)
    · by_cases hfree : r.degreeIn v = 0
      · exact ⟨1, .remainderFree hreduces hr hfree,
          isGcd_one_of_free_remainder hprimitive heq hr hfree, normalized_one⟩
      · have hsplit := isSplit_splitBy hover hr
        have hdegree := hsplit.degreeIn_primitive
        have hlt := hdeg.resolve_left hr
        obtain ⟨g, hg, hgcd, hnormal⟩ := ih _ (by omega) hh (hsplit.over_primitive hover hr)
          hsplit.primitive (by omega) rfl
        exact ⟨g, .remainder hreduces hr hfree (returns_content hvs hover) hg,
          isGcd_of_remainder hprimitive hc hc0 heq hsplit hgcd, hnormal⟩

theorem exists_returns_remaindersOf {vs : List String} {v : String} (hvs : ReturnsOver vs)
    {p q : Poly} (hp : Over (v :: vs) p) (hq : Over (v :: vs) q) (hprimp : PrimitiveIn v p)
    (hprimq : PrimitiveIn v q) (hposp : 0 < p.degreeIn v) (hposq : 0 < q.degreeIn v) :
    ∃ g, Returns (.remaindersOf v p q) g ∧ IsGcd g p q := by
  unfold Call.remaindersOf
  split
  · obtain ⟨g, hg, hgcd, -⟩ := exists_returns_remainders hvs hq hp hprimp hposp
    exact ⟨g, hg, hgcd.symm⟩
  · obtain ⟨g, hg, hgcd, -⟩ := exists_returns_remainders hvs hp hq hprimq hposq
    exact ⟨g, hg, hgcd⟩

theorem constantGcd?_eq_none {a b : Poly} (h : constantGcd? a b = none) :
    a ≠ 0 ∧ b ≠ 0 ∧ a.isConstant = false ∧ b.isConstant = false := by
  unfold constantGcd? at h
  split at h
  · cases h
  · next ha =>
    split at h
    · cases h
    · next hb =>
      split at h
      · cases h
      · next hconstant =>
        rw [Bool.not_eq_true, Bool.or_eq_false_iff] at hconstant
        rw [isZero_iff] at ha hb
        exact ⟨ha, hb, hconstant⟩

theorem constantGcd?_eq_some {a b g : Poly} (h : constantGcd? a b = some g) : g = gcd a b := by
  unfold constantGcd? at h
  split at h
  · next ha =>
    cases h
    rw [isZero_iff.1 ha, gcd_zero_left]
  · next ha =>
    split at h
    · next hb =>
      cases h
      rw [isZero_iff.1 hb, gcd_zero_right]
    · next hb =>
      split at h
      · next hconstant =>
        cases h
        rw [isZero_iff] at ha hb
        rcases Bool.or_eq_true _ _ ▸ hconstant with hc | hc
        · exact (gcd_eq_one_of_isUnit (isUnit_iff.2 ⟨hc, ha⟩) b).symm
        · rw [gcd_comm]
          exact (gcd_eq_one_of_isUnit (isUnit_iff.2 ⟨hc, hb⟩) a).symm
      · cases h

theorem over_vars_lcm_left (a b : Poly) : Over (a.degrees.lcm b.degrees).vars a := by
  intro x hx
  rw [Monomial.mem_vars_iff, Monomial.exponent_lcm, exponent_degrees] at hx
  omega

theorem over_vars_lcm_right (a b : Poly) : Over (a.degrees.lcm b.degrees).vars b := by
  intro x hx
  rw [Monomial.mem_vars_iff, Monomial.exponent_lcm, exponent_degrees, exponent_degrees] at hx
  omega

/-- Over the first variable, a call needs calls in the other variables only. -/
theorem returns_gcd_of_tail {a b : Poly} {v : String} {vs : List String}
    (hvars : (a.degrees.lcm b.degrees).vars = v :: vs) (hnone : constantGcd? a b = none)
    (hvs : ReturnsOver vs) : Returns (.gcd a b) (gcd a b) := by
  have ha := over_vars_lcm_left a b
  have hb := over_vars_lcm_right a b
  rw [hvars] at ha hb
  obtain ⟨ha0, hb0, -⟩ := constantGcd?_eq_none hnone
  have hv : FirstVar a b v := ⟨hnone, by rw [hvars]; rfl⟩
  have hfind := findsGcd_gcd vs
  by_cases hfa : a.degreeIn v = 0
  · have hcontent := over_contentBy hfind hb hb0
    have heq : gcd a (content b v) = gcd a b :=
      (isGcd_of_free hfind ha0 hfa hb (isGcd_gcd a _)).eq_gcd (normalized_gcd a _)
    rw [← heq]
    exact .freeLeft hv hfa (returns_content hvs hb)
      (hvs a _ (ha.cons_of_degreeIn_eq_zero hfa) hcontent)
  · by_cases hfb : b.degreeIn v = 0
    · have hcontent := over_contentBy hfind ha ha0
      have heq : gcd (content a v) b = gcd a b :=
        (isGcd_of_free hfind hb0 hfb ha (isGcd_gcd _ b).symm).symm.eq_gcd (normalized_gcd _ b)
      rw [← heq]
      exact .freeRight hv hfa hfb (returns_content hvs ha)
        (hvs _ b hcontent (hb.cons_of_degreeIn_eq_zero hfb))
    · have hsa := isSplit_splitBy ha ha0
      have hsb := isSplit_splitBy hb hb0
      obtain ⟨r, hr, hgcd⟩ := exists_returns_remaindersOf hvs (hsa.over_primitive ha ha0)
        (hsb.over_primitive hb hb0) hsa.primitive hsb.primitive
        (by rw [hsa.degreeIn_primitive]; omega) (by rw [hsb.degreeIn_primitive]; omega)
      have hmul := (isGcd_gcd (splitBy (content a v) a).1 (splitBy (content b v) b).1).mul hgcd
        hsa.free hsa.ne_zero hsb.free hsb.ne_zero hsa.primitive hsb.primitive
      rw [← hsa.eq_mul, ← hsb.eq_mul] at hmul
      rw [← hmul.normalized.eq_gcd (normalized_normalized _)]
      exact .split hv hfa hfb (returns_content hvs ha) (returns_content hvs hb)
        (hvs _ _ (hsa.over_content ha ha0) (hsb.over_content hb hb0)) hr

/-- A call for a greatest common divisor returns, by induction on the number of variables. -/
theorem returnsOver (vs : List String) : ReturnsOver vs := by
  induction hn : vs.length using Nat.strong_induction_on generalizing vs with
  | _ n ih =>
    intro a b ha hb
    cases hconstant : constantGcd? a b with
    | some g =>
      rw [← constantGcd?_eq_some hconstant]
      exact .constant hconstant
    | none =>
      cases hvars : (a.degrees.lcm b.degrees).vars with
      | nil =>
        have hover := over_vars_lcm_left a b
        rw [hvars] at hover
        have hfalse := (constantGcd?_eq_none hconstant).2.2.1
        rw [isConstant_iff_degreeIn.2 fun x => hover x List.not_mem_nil] at hfalse
        cases hfalse
      | cons v us =>
        have hsub : v :: us ⊆ vs := by
          rw [← hvars]
          intro x hx
          by_contra hxvs
          rw [Monomial.mem_vars_iff, Monomial.exponent_lcm, exponent_degrees, exponent_degrees,
            ha x hxvs, hb x hxvs] at hx
          exact absurd hx (lt_irrefl 0)
        have hnodup : (v :: us).Nodup := hvars ▸ FinSupp.nodup_keys _
        have hle : us.length + 1 ≤ vs.length := (hnodup.subperm hsub).length_le
        exact returns_gcd_of_tail hvars hconstant (ih us.length (by omega) us rfl)

theorem returns_gcd (a b : Poly) : Returns (.gcd a b) (gcd a b) :=
  returnsOver _ a b (over_vars_lcm_left a b) (over_vars_lcm_right a b)

/-! ## The greatest common divisor -/

/-- The recursion returns for any two polynomials, with their canonical greatest common
divisor: it divides both, what divides both divides it, and it is its own canonical
associate.  It is zero only for two zeros, one exactly for coprime polynomials, and depends
neither on the order of the two nor on rational factors of either. -/
theorem gcd_canonical (a b : Poly) :
    (∀ g, Returns (.gcd a b) g ↔ g = gcd a b) ∧
    gcd a b ∣ a ∧ gcd a b ∣ b ∧ (∀ d, d ∣ a → d ∣ b → d ∣ gcd a b) ∧
    (gcd a b).normalized = gcd a b ∧ ((gcd a b).Canonical ∨ a = 0 ∧ b = 0) ∧
    (gcd a b = 0 ↔ a = 0 ∧ b = 0) ∧ (gcd a b = 1 ↔ IsRelPrime a b) ∧
    gcd 0 b = b.normalized ∧ gcd a 0 = a.normalized ∧ gcd a b = gcd b a ∧
    ∀ c : ℚ, c ≠ 0 → gcd (constant c) b = 1 ∧ gcd a (constant c) = 1 ∧
      gcd (a.scale c) b = gcd a b ∧ gcd a (b.scale c) = gcd a b := by
  have hdvd := isGcd_gcd a b
  refine ⟨fun g => ⟨fun h => h.unique (returns_gcd a b), ?_⟩, hdvd.dvd_left, hdvd.dvd_right,
    fun d ha hb => (hdvd d).2 ⟨ha, hb⟩, normalized_gcd a b, ?_, gcd_eq_zero_iff, gcd_eq_one_iff,
    gcd_zero_left b, gcd_zero_right a, gcd_comm a b, fun c hc => ?_⟩
  · rintro rfl
    exact returns_gcd a b
  · by_cases h0 : gcd a b = 0
    · exact Or.inr (gcd_eq_zero_iff.1 h0)
    · rw [← normalized_gcd]
      exact Or.inl (canonical_normalized h0)
  · have hunit := isUnit_constant hc
    refine ⟨gcd_eq_one_of_isUnit hunit b, ?_, gcd_scale hc a b, ?_⟩
    · rw [gcd_comm, gcd_eq_one_of_isUnit hunit]
    · rw [gcd_comm, gcd_scale hc, gcd_comm]

end Poly
end Meadow
