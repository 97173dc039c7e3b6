import Mathlib
import Meadow.Proofs.Poly.Kronecker

set_option autoImplicit false

/-!
# Kronecker's substitution

Taking the image of a polynomial is a homomorphism (`Kronecker.image_eq_hom`).  The weight of
a monomial is the number whose digits, in the mixed radix of the places, are its exponents
(`Kronecker.digitsValue`), so no two monomials within the degrees of the polynomial have the
same weight.  Hence a polynomial within the degrees can be read back from its image
(`Kronecker.preimage?_hom`), and what is read back has the image it was read from
(`Kronecker.hom_of_preimage?_eq_some`).
-/

namespace Meadow

/-! ## Digits -/

namespace Kronecker

/-- The number whose digits are the exponents of the listed variables, the lowest first. -/
def digitsValue (m : Monomial) : List (String × ℕ) → ℕ
  | [] => 0
  | (v, d) :: rest => m.exponent v + (d + 1) * digitsValue m rest

/-- The numbers that the digits reach lie below this one. -/
def radixProduct (ds : List (String × ℕ)) : ℕ := ds.foldr (fun p k => (p.2 + 1) * k) 1

/-- The sum of the exponents at the places, each times its weight. -/
def weighPlaces (places : List Place) (m : Monomial) : ℕ :=
  places.foldr (fun place n => m.exponent place.var * place.weight + n) 0

/-- The monomial with the digits of a number as its exponents. -/
def unweighPlaces (places : List Place) (e : ℕ) : Monomial :=
  places.foldr (fun place m => (Monomial.power place.var (e / place.weight % place.radix)).mul m)
    .one

variable {m n : Monomial} {ds : List (String × ℕ)}

theorem weighPlaces_placesFrom (w : ℕ) (m : Monomial) (ds : List (String × ℕ)) :
    weighPlaces (placesFrom w ds) m = w * digitsValue m ds := by
  induction ds generalizing w with
  | nil => rfl
  | cons p ds ih =>
    have hrest := ih (w * (p.2 + 1))
    change m.exponent p.1 * w + weighPlaces (placesFrom (w * (p.2 + 1)) ds) m = _
    rw [hrest, digitsValue]
    ring

theorem digitsValue_lt (h : ∀ p ∈ ds, m.exponent p.1 ≤ p.2) :
    digitsValue m ds < radixProduct ds := by
  induction ds with
  | nil => exact Nat.one_pos
  | cons p ds ih =>
    have hrest : digitsValue m ds + 1 ≤ radixProduct ds :=
      ih fun q hq => h q (List.mem_cons_of_mem p hq)
    have hdigit := h p List.mem_cons_self
    have hmul := Nat.mul_le_mul_left (p.2 + 1) hrest
    change _ < (p.2 + 1) * radixProduct ds
    rw [digitsValue]
    rw [Nat.mul_add, Nat.mul_one] at hmul
    omega

/-- Digits are determined by their number. -/
theorem exponent_eq_of_digitsValue_eq (hm : ∀ p ∈ ds, m.exponent p.1 ≤ p.2)
    (hn : ∀ p ∈ ds, n.exponent p.1 ≤ p.2) (h : digitsValue m ds = digitsValue n ds) :
    ∀ p ∈ ds, m.exponent p.1 = n.exponent p.1 := by
  induction ds with
  | nil =>
    intro p hp
    cases hp
  | cons q ds ih =>
    rw [digitsValue, digitsValue] at h
    have hmq := hm q List.mem_cons_self
    have hnq := hn q List.mem_cons_self
    have hmod := congrArg (· % (q.2 + 1)) h
    simp only [Nat.add_mul_mod_self_left] at hmod
    rw [Nat.mod_eq_of_lt (Nat.lt_succ_of_le hmq), Nat.mod_eq_of_lt (Nat.lt_succ_of_le hnq)] at hmod
    rw [hmod, Nat.add_left_cancel_iff] at h
    have hrest := Nat.eq_of_mul_eq_mul_left (Nat.succ_pos q.2) h
    refine List.forall_mem_cons.2 ⟨hmod, ?_⟩
    exact ih (fun p hp => hm p (List.mem_cons_of_mem q hp))
      (fun p hp => hn p (List.mem_cons_of_mem q hp)) hrest

theorem digitsValue_congr (h : ∀ p ∈ ds, m.exponent p.1 = n.exponent p.1) :
    digitsValue m ds = digitsValue n ds := by
  induction ds with
  | nil => rfl
  | cons q ds ih =>
    rw [digitsValue, digitsValue, h q List.mem_cons_self,
      ih fun p hp => h p (List.mem_cons_of_mem q hp)]

theorem get_eq_zero_of_notMem {x : String} (h : x ∉ ds.map Prod.fst) :
    Entries.get 0 x ds = 0 :=
  Entries.get_eq_zero fun p hp heq => h (List.mem_map.2 ⟨p, hp, heq⟩)

theorem unweighPlaces_cons (w e : ℕ) (p : String × ℕ) (ds : List (String × ℕ)) :
    unweighPlaces (placesFrom w (p :: ds)) e
      = (Monomial.power p.1 (e / w % (p.2 + 1))).mul
        (unweighPlaces (placesFrom (w * (p.2 + 1)) ds) e) := rfl

/-- A digit of a variable stays below its radix, and other variables have none. -/
theorem exponent_unweighPlaces_le (w e : ℕ) (hds : (ds.map Prod.fst).Nodup) (x : String) :
    (unweighPlaces (placesFrom w ds) e).exponent x ≤ Entries.get 0 x ds := by
  induction ds generalizing w with
  | nil => exact le_rfl
  | cons p ds ih =>
    obtain ⟨hp, hds⟩ := List.nodup_cons.1 hds
    have hrest := ih (w * (p.2 + 1)) hds
    have hdigit : e / w % (p.2 + 1) < p.2 + 1 := Nat.mod_lt _ (Nat.succ_pos p.2)
    rw [unweighPlaces_cons, Monomial.exponent_mul, Monomial.exponent_power, Entries.get]
    split
    · next hx =>
      have hget : Entries.get 0 x ds = 0 := get_eq_zero_of_notMem (hx ▸ hp)
      omega
    · rwa [zero_add]

/-- Below the product of the radices, a number is that of its digits. -/
theorem digitsValue_unweighPlaces (w e : ℕ) (hds : (ds.map Prod.fst).Nodup) :
    digitsValue (unweighPlaces (placesFrom w ds) e) ds = e / w % radixProduct ds := by
  induction ds generalizing w with
  | nil => exact (Nat.mod_one _).symm
  | cons p ds ih =>
    obtain ⟨hp, hds⟩ := List.nodup_cons.1 hds
    have hrest := ih (w * (p.2 + 1)) hds
    have hfree : (unweighPlaces (placesFrom (w * (p.2 + 1)) ds) e).exponent p.1 = 0 := by
      have hle := exponent_unweighPlaces_le (w * (p.2 + 1)) e hds p.1
      rwa [get_eq_zero_of_notMem hp, Nat.le_zero] at hle
    rw [unweighPlaces_cons]
    have hcongr : digitsValue ((Monomial.power p.1 (e / w % (p.2 + 1))).mul
          (unweighPlaces (placesFrom (w * (p.2 + 1)) ds) e)) ds
        = digitsValue (unweighPlaces (placesFrom (w * (p.2 + 1)) ds) e) ds := by
      refine digitsValue_congr fun q hq => ?_
      have hne : p.1 ≠ q.1 := fun heq => hp (List.mem_map.2 ⟨q, hq, heq.symm⟩)
      rw [Monomial.exponent_mul, Monomial.exponent_power, if_neg hne, zero_add]
    rw [digitsValue, hcongr, hrest, Monomial.exponent_mul, Monomial.exponent_power, if_pos rfl,
      hfree, add_zero, ← Nat.div_div_eq_div_mul]
    exact (Nat.mod_mul).symm

/-! ## The substitution as a homomorphism -/

variable {k : Kronecker} {p q r i : Poly}

theorem weigh_mul (k : Kronecker) (m n : Monomial) :
    k.weigh (m.mul n) = k.weigh m + k.weigh n := by
  have main (places : List Place) :
      weighPlaces places (m.mul n) = weighPlaces places m + weighPlaces places n := by
    induction places with
    | nil => rfl
    | cons place places ih =>
      change (m.mul n).exponent place.var * place.weight + weighPlaces places (m.mul n)
        = m.exponent place.var * place.weight + weighPlaces places m
          + (n.exponent place.var * place.weight + weighPlaces places n)
      rw [ih, Monomial.exponent_mul]
      ring
  exact main k.places

theorem weigh_one (k : Kronecker) : k.weigh .one = 0 := by
  have hdouble := weigh_mul k .one .one
  have hone : Monomial.one.mul .one = .one := rfl
  rw [hone] at hdouble
  omega

/-- Put the power of the image variable for each variable. -/
noncomputable def hom (k : Kronecker) : Poly →+* Poly :=
  (MvPolynomial.eval₂Hom Poly.constantHom fun v =>
    Poly.var imageVar ^ k.weigh (.power v 1)).comp Poly.toMvHom

theorem hom_constant (k : Kronecker) (c : ℚ) : k.hom (.constant c) = .constant c := by
  change MvPolynomial.eval₂Hom _ _ (Poly.constant c).toMv = _
  rw [Poly.toMv_constant, MvPolynomial.eval₂Hom_C]
  rfl

theorem hom_var (k : Kronecker) (v : String) :
    k.hom (.var v) = .monomial (.power imageVar (k.weigh (.power v 1))) 1 := by
  change MvPolynomial.eval₂Hom _ _ (Poly.var v).toMv = _
  rw [Poly.toMv_var, MvPolynomial.eval₂Hom_X', Poly.monomial_power]

theorem power_mul_power (v : String) (a b : ℕ) :
    (Monomial.power v a).mul (.power v b) = .power v (a + b) :=
  Monomial.ext_exponent fun x => by
    rw [Monomial.exponent_mul, Monomial.exponent_power, Monomial.exponent_power,
      Monomial.exponent_power]
    split
    · rfl
    · rfl

theorem power_injective {v : String} {a b : ℕ} (h : Monomial.power v a = .power v b) : a = b := by
  have hexponent := congrArg (fun m => m.exponent v) h
  simpa using hexponent

/-- A term becomes the power of the image variable that its weight says. -/
theorem hom_monomial (k : Kronecker) (m : Monomial) (c : ℚ) :
    k.hom (.monomial m c) = .monomial (.power imageVar (k.weigh m)) c := by
  have hmul {m n : Monomial} (hm : ∀ c, k.hom (.monomial m c)
      = .monomial (.power imageVar (k.weigh m)) c) (hn : ∀ c, k.hom (.monomial n c)
      = .monomial (.power imageVar (k.weigh n)) c) (c : ℚ) : k.hom (.monomial (m.mul n) c)
      = .monomial (.power imageVar (k.weigh (m.mul n))) c := by
    have hsplit := Poly.monomial_mul_monomial m n c 1
    rw [mul_one] at hsplit
    rw [← hsplit, map_mul, hm, hn, Poly.monomial_mul_monomial, mul_one, power_mul_power, weigh_mul]
  have hone (c : ℚ) : k.hom (.monomial .one c) = .monomial (.power imageVar (k.weigh .one)) c := by
    have hpower : Monomial.power imageVar 0 = .one := rfl
    rw [weigh_one, hpower]
    exact hom_constant k c
  obtain ⟨f, hf⟩ : ∃ f, f = m.toFinsupp := ⟨_, rfl⟩
  induction f using Finsupp.induction_linear generalizing m c with
  | zero =>
    rw [Monomial.toFinsupp_injective (hf.symm.trans Monomial.toFinsupp_one.symm)]
    exact hone c
  | add f g ihf ihg =>
    obtain ⟨n, rfl⟩ := Monomial.toFinsupp_surjective f
    obtain ⟨l, rfl⟩ := Monomial.toFinsupp_surjective g
    rw [← Monomial.toFinsupp_mul, Monomial.toFinsupp_inj] at hf
    rw [← hf]
    exact hmul (fun c => ihf n c rfl) (fun c => ihg l c rfl) c
  | single v e =>
    rw [← Monomial.toFinsupp_power, Monomial.toFinsupp_inj] at hf
    subst hf
    induction e generalizing c with
    | zero => exact hone c
    | succ e ih =>
      rw [← power_mul_power]
      refine hmul ih (fun c => ?_) c
      have hscale := Poly.monomial_mul_monomial .one (.power v 1) c 1
      have hleft {n : Monomial} : Monomial.one.mul n = n :=
        Monomial.ext_exponent fun x => by
          rw [Monomial.exponent_mul, Monomial.exponent_one, zero_add]
      rw [mul_one, hleft] at hscale
      rw [← hscale, map_mul]
      refine (congrArg₂ _ (hom_constant k c) (hom_var k v)).trans ?_
      rw [Poly.constant, Poly.monomial_mul_monomial, mul_one, hleft]

/-- The image is that of the substitution. -/
theorem image_eq_hom (k : Kronecker) (p : Poly) : k.image p = k.hom p := by
  conv_rhs => rw [← Poly.sum_terms p, map_list_sum, List.map_map]
  rw [image, Poly.ofTerms_eq_sum, List.map_map]
  exact congrArg List.sum (List.map_congr_left fun t _ => (hom_monomial k t.1 t.2).symm)

theorem over_hom (k : Kronecker) (p : Poly) : Poly.Over [imageVar] (k.hom p) := by
  intro x hx
  rw [← image_eq_hom, image, Poly.ofTerms_eq_sum, List.map_map]
  refine Nat.le_zero.1 (Poly.degreeIn_sum_le fun q hq => ?_)
  obtain ⟨t, -, rfl⟩ := List.mem_map.1 hq
  refine (Poly.degreeIn_monomial_le _ _ x).trans (le_of_eq ?_)
  rw [Monomial.exponent_power, if_neg fun h => hx (List.mem_singleton.2 h.symm)]

/-! ## Reading back -/

theorem coeff_sum (l : List Poly) (m : Monomial) :
    l.sum.coeff m = (l.map fun q => q.coeff m).sum := by
  induction l with
  | nil => rfl
  | cons q l ih =>
    rw [List.sum_cons, List.map_cons, List.sum_cons, ← ih]
    exact Poly.coeff_add q l.sum m

theorem preimage?_eq_none {g : Poly} {m : Monomial} (hm : g.coeff m ≠ 0)
    (h : k.span ≤ m.exponent imageVar) : k.preimage? g = none := by
  refine if_neg fun hall => ?_
  rw [List.all_eq_true] at hall
  have hlt : m.exponent imageVar < k.span :=
    of_decide_eq_true (hall _ (Poly.mem_terms_of_coeff_ne_zero hm))
  omega

/-- An image whose powers all lie in the span is read back. -/
theorem exists_preimage? {g : Poly} (h : ∀ m, g.coeff m ≠ 0 → m.exponent imageVar < k.span) :
    ∃ r, k.preimage? g = some r :=
  ⟨_, if_pos (List.all_eq_true.2 fun t ht =>
    decide_eq_true (h t.1 (Poly.coeff_ne_zero_of_mem ht)))⟩

/-- No degree exceeds that of `p`. -/
def Fits (p q : Poly) : Prop := ∀ x, q.degreeIn x ≤ p.degreeIn x

theorem fits_of_dvd (hp : p ≠ 0) (h : q ∣ p) : Fits p q := Poly.degreeIn_le_of_dvd hp h

theorem fits_constant (p : Poly) (c : ℚ) : Fits p (.constant c) := fun x => by
  rw [Poly.degreeIn_constant]
  exact Nat.zero_le _

section OfPoly

variable (hk : ofPoly? p = some k)

include hk

theorem eq_of_ofPoly? : k = ⟨placesFrom 1 p.degrees.powers, p.degrees.divisorCount⟩ := by
  unfold ofPoly? at hk
  dsimp only at hk
  split at hk
  · cases hk
  · cases hk
    rfl

theorem weigh_eq_digitsValue (m : Monomial) : k.weigh m = digitsValue m p.degrees.powers := by
  rw [eq_of_ofPoly? hk]
  exact (weighPlaces_placesFrom 1 m _).trans (one_mul _)

theorem span_eq_radixProduct : k.span = radixProduct p.degrees.powers := by
  rw [eq_of_ofPoly? hk]
  rfl

theorem unweigh_eq_unweighPlaces (e : ℕ) :
    k.unweigh e = unweighPlaces (placesFrom 1 p.degrees.powers) e := by
  rw [eq_of_ofPoly? hk]
  rfl

omit hk in
theorem exponent_le_of_fits (hq : Fits p q) (hm : q.coeff m ≠ 0) :
    ∀ w ∈ p.degrees.powers, m.exponent w.1 ≤ w.2 := by
  intro w hw
  have hexponent : p.degrees.exponent w.1 = w.2 := (FinSupp.mem_entries_iff.1 hw).1
  rw [← hexponent, Poly.exponent_degrees]
  exact (Poly.exponent_le_degreeIn hm w.1).trans (hq w.1)

/-- Within the degrees, weights tell monomials apart. -/
theorem weigh_injective_of_fits (hq : Fits p q) (hr : Fits p r) (hm : q.coeff m ≠ 0)
    (hn : r.coeff n ≠ 0) (h : k.weigh m = k.weigh n) : m = n := by
  rw [weigh_eq_digitsValue hk, weigh_eq_digitsValue hk] at h
  have heq := exponent_eq_of_digitsValue_eq (exponent_le_of_fits hq hm)
    (exponent_le_of_fits hr hn) h
  refine Monomial.ext_exponent fun x => ?_
  by_cases hx : p.degreeIn x = 0
  · have hmx := (Poly.exponent_le_degreeIn hm x).trans (hq x)
    have hnx := (Poly.exponent_le_degreeIn hn x).trans (hr x)
    omega
  · rw [← Poly.exponent_degrees] at hx
    exact heq (x, p.degrees.exponent x) (FinSupp.mem_entries_iff.2 ⟨rfl, hx⟩)

/-- The coefficients of an image are those of the polynomial. -/
theorem coeff_hom_of_fits (hq : Fits p q) (hr : Fits p r) (hm : r.coeff m ≠ 0) :
    (k.hom q).coeff (.power imageVar (k.weigh m)) = q.coeff m := by
  conv_rhs => rw [← Poly.sum_terms q]
  rw [← image_eq_hom, image, Poly.ofTerms_eq_sum, List.map_map, coeff_sum, coeff_sum,
    List.map_map, List.map_map]
  refine congrArg List.sum (List.map_congr_left fun t ht => ?_)
  have ht0 : q.coeff t.1 ≠ 0 := Poly.coeff_ne_zero_of_mem ht
  simp only [Function.comp_apply, Poly.coeff_monomial]
  refine if_congr ⟨fun h => ?_, fun h => by rw [h]⟩ rfl rfl
  exact weigh_injective_of_fits hk hq hr ht0 hm (power_injective h)

/-- Within the degrees, images tell polynomials apart. -/
theorem hom_injective_of_fits (hq : Fits p q) (hr : Fits p r) (h : k.hom q = k.hom r) :
    q = r := by
  refine Poly.ext_coeff fun m => ?_
  by_cases hm : q.coeff m = 0
  · by_cases hm' : r.coeff m = 0
    · rw [hm, hm']
    · rw [← coeff_hom_of_fits hk hq hr hm', ← coeff_hom_of_fits hk hr hr hm', h]
  · rw [← coeff_hom_of_fits hk hq hq hm, ← coeff_hom_of_fits hk hr hq hm, h]

theorem hom_ne_zero_of_fits (hq : Fits p q) (h0 : q ≠ 0) : k.hom q ≠ 0 := by
  intro h
  refine h0 (hom_injective_of_fits hk hq (fun x => Nat.zero_le _) ?_)
  rw [h, map_zero]

/-- The weights of the monomials within the degrees lie in the span. -/
theorem exponent_lt_span_of_fits (hq : Fits p q) {t : Monomial × ℚ} (ht : t ∈ (k.hom q).terms) :
    t.1.exponent imageVar < k.span := by
  have ht0 : (k.hom q).coeff t.1 ≠ 0 := Poly.coeff_ne_zero_of_mem ht
  rw [← image_eq_hom, image, Poly.ofTerms_eq_sum, List.map_map, coeff_sum, List.map_map] at ht0
  obtain ⟨c, hc, hne⟩ := List.exists_mem_ne_zero_of_sum_ne_zero ht0
  obtain ⟨u, hu, rfl⟩ := List.mem_map.1 hc
  simp only [Function.comp_apply, Poly.coeff_monomial] at hne
  split at hne
  · next heq =>
    have hu0 : q.coeff u.1 ≠ 0 := by
      rw [Poly.coeff_of_mem hu]
      exact q.coeffs.nonzero u hu
    rw [← heq, Monomial.exponent_power, if_pos rfl, weigh_eq_digitsValue hk,
      span_eq_radixProduct hk]
    exact digitsValue_lt (exponent_le_of_fits hq hu0)
  · exact absurd rfl hne

/-- What is read back fits, and has the image that it was read from. -/
theorem hom_of_preimage?_eq_some (hi : Poly.Over [imageVar] i) (h : k.preimage? i = some q) :
    k.hom q = i ∧ Fits p q := by
  have hnodup : (p.degrees.powers.map Prod.fst).Nodup := p.degrees.exponents.nodup_keys
  unfold preimage? at h
  split at h
  · next hspan =>
    cases h
    rw [List.all_eq_true] at hspan
    refine ⟨?_, fun x => ?_⟩
    · conv_rhs => rw [← Poly.sum_terms i]
      rw [Poly.ofTerms_eq_sum, List.map_map, map_list_sum, List.map_map]
      refine congrArg List.sum (List.map_congr_left fun t ht => ?_)
      have hlt := of_decide_eq_true (hspan t ht)
      rw [span_eq_radixProduct hk] at hlt
      rw [Function.comp_apply, Function.comp_apply, hom_monomial, weigh_eq_digitsValue hk,
        unweigh_eq_unweighPlaces hk, digitsValue_unweighPlaces 1 _ hnodup, Nat.div_one,
        Nat.mod_eq_of_lt hlt, ← Poly.eq_power_of_mem_terms hi ht]
    · rw [Poly.ofTerms_eq_sum, List.map_map]
      refine Poly.degreeIn_sum_le fun q hq => ?_
      obtain ⟨t, -, rfl⟩ := List.mem_map.1 hq
      refine (Poly.degreeIn_monomial_le _ _ x).trans ?_
      dsimp only
      rw [unweigh_eq_unweighPlaces hk, ← Poly.exponent_degrees]
      exact exponent_unweighPlaces_le 1 _ hnodup x
  · cases h

/-- Within the degrees, a polynomial is read back from its image. -/
theorem preimage?_hom (hq : Fits p q) : k.preimage? (k.hom q) = some q := by
  obtain ⟨r, hr⟩ := exists_preimage? fun m hm =>
    exponent_lt_span_of_fits hk hq (Poly.mem_terms_of_coeff_ne_zero hm)
  obtain ⟨hhom, hfits⟩ := hom_of_preimage?_eq_some hk (over_hom k q) hr
  rw [hr, hom_injective_of_fits hk hfits hq hhom]

/-- Within the degrees, only constants have constant images. -/
theorem isUnit_of_isUnit_hom (hq : Fits p q) (h : IsUnit (k.hom q)) : IsUnit q := by
  obtain ⟨hconst, hne⟩ := Poly.isUnit_iff.1 h
  obtain ⟨c, hc⟩ := Poly.isConstant_iff.1 hconst
  rw [← hom_constant k c] at hc
  have heq := hom_injective_of_fits hk hq (fits_constant p c) hc
  rw [heq, Poly.isUnit_iff]
  refine ⟨Poly.isConstant_iff.2 ⟨c, rfl⟩, fun h0 => hne ?_⟩
  rw [hc, h0, map_zero]

end OfPoly

/-! ## What the substitution keeps -/

theorem image_mul (k : Kronecker) (a b : Poly) : k.image (a * b) = k.image a * k.image b := by
  rw [image_eq_hom, image_eq_hom, image_eq_hom, map_mul]

/-- The substitution for a polynomial loses nothing of what stays within its degrees, and
goes along with products of divisors. -/
theorem image_faithful (hk : ofPoly? p = some k) :
    (∀ q, (∀ x, q.degreeIn x ≤ p.degreeIn x) → k.preimage? (k.image q) = some q) ∧
      (∀ a b, a.mul b ∣ p → k.image (a.mul b) = (k.image a).mul (k.image b)) ∧
      ∀ g, (∀ x, x ≠ imageVar → g.degreeIn x = 0) →
        ((∃ m, g.coeff m ≠ 0 ∧ k.span ≤ m.exponent imageVar) → k.preimage? g = none) ∧
        ((∀ m, g.coeff m ≠ 0 → m.exponent imageVar < k.span) →
          ∃ r, k.preimage? g = some r ∧ k.image r = g ∧ ∀ x, r.degreeIn x ≤ p.degreeIn x) := by
  refine ⟨fun q hq => ?_, fun a b _ => image_mul k a b, fun g hg => ⟨?_, fun hspan => ?_⟩⟩
  · rw [image_eq_hom]
    exact preimage?_hom hk hq
  · rintro ⟨m, hm, hspan⟩
    exact preimage?_eq_none hm hspan
  · obtain ⟨r, hr⟩ := exists_preimage? hspan
    have hover : Poly.Over [imageVar] g := fun x hx => hg x (by simpa using hx)
    obtain ⟨hhom, hfits⟩ := hom_of_preimage?_eq_some hk hover hr
    exact ⟨r, hr, by rw [image_eq_hom, hhom], hfits⟩

/-- In `t ^ 2 * (s + u)` one of the variables has the name of the image variable.  The span is
`2 * 3 * 2`, so that nothing is read back from `t ^ 12`. -/
theorem image_faithful_imageVar :
    let p : Poly := ((Poly.var imageVar).pow 2).mul ((Poly.var "s").add (.var "u"))
    ∃ k, ofPoly? p = some k ∧ k.preimage? (k.image p) = some p ∧
      k.preimage? (.monomial (.power imageVar 12) 1) = none := by
  intro p
  have hk : ofPoly? p = some ⟨placesFrom 1 p.degrees.powers, p.degrees.divisorCount⟩ :=
    if_neg (by with_unfolding_all decide)
  obtain ⟨hread, -, hback⟩ := image_faithful hk
  have hspan : p.degrees.divisorCount ≤ 12 := by with_unfolding_all decide
  refine ⟨_, hk, hread p fun x => le_rfl, (hback _ fun x hx => ?_).1 ⟨.power imageVar 12, ?_, ?_⟩⟩
  · refine Nat.le_zero.1 ((Poly.degreeIn_monomial_le _ _ x).trans ?_)
    simp [Ne.symm hx]
  · simp
  · simpa using hspan

end Kronecker
end Meadow
