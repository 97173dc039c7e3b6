import Mathlib
import Meadow.Proofs.Subset

set_option autoImplicit false

/-!
# Recombination of prime pieces

The image of an element under a homomorphism falls into prime pieces, and the true factors
of the element are looked for among the products of pieces, the smallest sets first.
`Recombination φ s a l` is the state of such a search: the pieces `l` make up the image of
`a`, and every divisor of `a` but a unit takes at least `s` of them.  Then a divisor that
takes `s` pieces is irreducible and leaves such a state behind
(`Recombination.irreducible_divisor`, `Recombination.cofactor`), and with fewer than `2 * s`
pieces left, what is left is irreducible (`Recombination.irreducible`).
-/

namespace Meadow

/-! ## The number of prime factors -/

section PrimeCount

variable {M : Type*} [CommMonoidWithZero M] [UniqueFactorizationMonoid M] {a b : M}

open UniqueFactorizationMonoid (factors)

/-- The number of prime factors, each as often as it divides. -/
noncomputable def primeCount (a : M) : ℕ := Multiset.card (factors a)

theorem primeCount_mul (ha : a ≠ 0) (hb : b ≠ 0) :
    primeCount (a * b) = primeCount a + primeCount b := by
  have hrel := UniqueFactorizationMonoid.factors_mul ha hb
  rw [primeCount, Multiset.card_eq_card_of_rel hrel, Multiset.card_add]
  rfl

theorem primeCount_prod [Nontrivial M] {l : List M} (h : ∀ r ∈ l, Prime r)
    (ha : Associated l.prod a) : primeCount a = l.length := by
  have hl0 : l.prod ≠ 0 := List.prod_ne_zero fun h0 => (h 0 h0).ne_zero rfl
  have ha0 : a ≠ 0 := fun h0 => hl0 (ha.eq_zero_iff.2 h0)
  have hrel := UniqueFactorizationMonoid.factors_unique (f := factors a) (g := (l : Multiset M))
    (fun r hr => UniqueFactorizationMonoid.irreducible_of_factor r hr)
    (fun r hr => (h r hr).irreducible)
    ((UniqueFactorizationMonoid.factors_prod ha0).trans
      (by rwa [Multiset.prod_coe, Associated.comm]))
  rw [primeCount, Multiset.card_eq_card_of_rel hrel, Multiset.coe_card]

theorem primeCount_pos (ha : a ≠ 0) (hu : ¬ IsUnit a) : 0 < primeCount a := by
  rw [primeCount, Multiset.card_pos]
  intro h0
  have hprod := UniqueFactorizationMonoid.factors_prod ha
  rw [h0, Multiset.prod_zero] at hprod
  exact hu (associated_one_iff_isUnit.1 hprod.symm)

/-- A divisor of a product of primes is the product of some of them, up to a unit. -/
theorem exists_sublist_of_dvd_prod {l : List M} (hl : ∀ r ∈ l, Prime r) {d : M}
    (h : d ∣ l.prod) : ∃ k : List M, k.Sublist l ∧ Associated k.prod d := by
  induction l generalizing d with
  | nil => exact ⟨[], List.Sublist.refl _, (associated_one_iff_isUnit.2 (isUnit_of_dvd_one h)).symm⟩
  | cons r l ih =>
    have hr := hl r List.mem_cons_self
    have hrest := fun {e : M} => ih (fun x hx => hl x (List.mem_cons_of_mem r hx)) (d := e)
    obtain ⟨e, he⟩ := h
    rw [List.prod_cons] at he
    rcases hr.dvd_or_dvd (Dvd.intro _ he) with ⟨d', rfl⟩ | ⟨e', rfl⟩
    · rw [mul_assoc] at he
      obtain ⟨k, hk, hassoc⟩ := hrest ⟨e, mul_left_cancel₀ hr.ne_zero he⟩
      exact ⟨r :: k, hk.cons_cons r, by rw [List.prod_cons]; exact hassoc.mul_left r⟩
    · rw [mul_left_comm] at he
      obtain ⟨k, hk, hassoc⟩ := hrest ⟨e', mul_left_cancel₀ hr.ne_zero he⟩
      exact ⟨k, hk.cons r, hassoc⟩

end PrimeCount

/-! ## The state of a search -/

/-- The pieces make up the image of `a`, and what divides `a`, but for units, takes at least
`s` of them. -/
structure Recombination {R S : Type} [CommRing R] [CommRing S] [UniqueFactorizationMonoid S]
    (φ : R →+* S) (s : ℕ) (a : R) (pieces : List S) : Prop where
  prime : ∀ r ∈ pieces, Prime r
  associated : Associated pieces.prod (φ a)
  minimal : ∀ d, d ∣ a → ¬ IsUnit d → s ≤ primeCount (φ d)

namespace Recombination

variable {R S : Type} [CommRing R] [CommRing S] [UniqueFactorizationMonoid S] {φ : R →+* S}
  {s : ℕ} {a b d : R} {pieces : List S}

/-- An element whose divisors take `s` pieces each is irreducible if it takes fewer than
`2 * s`: two factors would take more. -/
theorem irreducible_of_lt (hu : ¬ IsUnit a) (h0 : φ a ≠ 0)
    (hmin : ∀ d, d ∣ a → ¬ IsUnit d → s ≤ primeCount (φ d)) (hlt : primeCount (φ a) < 2 * s) :
    Irreducible a := by
  refine ⟨hu, ?_⟩
  intro b c heq
  by_contra hunits
  rw [not_or] at hunits
  have hb := hmin b ⟨c, heq⟩ hunits.1
  have hc := hmin c ⟨b, heq.trans (mul_comm b c)⟩ hunits.2
  rw [heq, map_mul] at h0
  have hmul := primeCount_mul (left_ne_zero_of_mul h0) (right_ne_zero_of_mul h0)
  rw [← map_mul, ← heq] at hmul
  omega

/-- No divisor takes exactly `s` pieces, so all take more. -/
theorem succ (h : Recombination φ s a pieces)
    (hne : ∀ d, d ∣ a → ¬ IsUnit d → primeCount (φ d) ≠ s) :
    Recombination φ (s + 1) a pieces := by
  refine ⟨h.prime, h.associated, ?_⟩
  intro d hd hu
  exact Nat.lt_of_le_of_ne (h.minimal d hd hu) (hne d hd hu).symm

theorem prime_of_mem_select (h : Recombination φ s a pieces) {places : List ℕ} :
    ∀ r ∈ Subset.select pieces places, Prime r := by
  intro r hr
  obtain ⟨i, -, hi⟩ := List.mem_filterMap.1 hr
  exact h.prime r (List.mem_of_getElem? hi)

/-- What has pieces is not a unit. -/
theorem not_isUnit (h : Recombination φ s a pieces) (hne : pieces ≠ []) : ¬ IsUnit a := by
  intro hunit
  obtain ⟨r, hr⟩ := List.exists_mem_of_ne_nil pieces hne
  refine (h.prime r hr).not_isUnit (isUnit_of_dvd_unit (List.dvd_prod hr) ?_)
  exact h.associated.symm.isUnit (hunit.map φ)

variable [IsDomain S]

theorem image_ne_zero (h : Recombination φ s a pieces) : φ a ≠ 0 := by
  intro h0
  have hprod := h.associated.eq_zero_iff.2 h0
  exact List.prod_ne_zero (fun hmem => (h.prime 0 hmem).ne_zero rfl) hprod

theorem irreducible (h : Recombination φ s a pieces) (hu : ¬ IsUnit a)
    (hlt : pieces.length < 2 * s) : Irreducible a := by
  refine irreducible_of_lt hu h.image_ne_zero h.minimal ?_
  rwa [primeCount_prod h.prime h.associated]

/-- A divisor takes the pieces at some places. -/
theorem exists_places (h : Recombination φ s a pieces) (hd : d ∣ a) :
    ∃ places, Subset.Ascending pieces.length 0 places ∧ places.length = primeCount (φ d) ∧
      Associated (Subset.select pieces places).prod (φ d) := by
  obtain ⟨k, hk, hassoc⟩ := exists_sublist_of_dvd_prod h.prime
    ((map_dvd φ hd).trans h.associated.symm.dvd)
  obtain ⟨places, hplaces, hlen, hselect⟩ := Subset.exists_select_of_sublist hk
  refine ⟨places, hplaces, ?_, by rwa [hselect]⟩
  rw [hlen, primeCount_prod (fun r hr => h.prime r (hk.subset hr)) hassoc]

variable {places : List ℕ}

section Divisor

variable (h : Recombination φ s a pieces) (heq : a = d * b)
  (hplaces : Subset.Ascending pieces.length 0 places)
  (hd : Associated (Subset.select pieces places).prod (φ d))

include h hplaces hd

/-- A divisor that takes `s` pieces is irreducible. -/
theorem irreducible_divisor (hdvd : d ∣ a) (hu : ¬ IsUnit d) (hs : 0 < s)
    (hlen : places.length = s) : Irreducible d := by
  have hcount := primeCount_prod h.prime_of_mem_select hd
  rw [Subset.length_select hplaces, hlen] at hcount
  refine irreducible_of_lt hu ?_ (fun e he => h.minimal e (he.trans hdvd)) (by omega)
  exact fun h0 => h.image_ne_zero (zero_dvd_iff.1 (h0 ▸ map_dvd φ hdvd))

include heq

/-- What a divisor leaves is made up of the pieces that it does not take. -/
theorem cofactor : Recombination φ s b (Subset.remove pieces places) := by
  have hperm := Subset.perm_select_append_remove hplaces
  have hprod := hperm.prod_eq
  rw [List.prod_append] at hprod
  have himage := h.image_ne_zero
  rw [heq, map_mul] at himage
  refine ⟨?_, ?_, fun e he => h.minimal e (heq ▸ he.mul_left d)⟩
  · intro r hr
    exact h.prime r (hperm.mem_iff.1 (List.mem_append_right _ hr))
  · have hassoc := h.associated
    rw [← hprod, heq, map_mul] at hassoc
    exact Associated.of_mul_left hassoc hd fun h0 =>
      left_ne_zero_of_mul himage (hd.eq_zero_iff.1 h0)

end Divisor

end Recombination
end Meadow
