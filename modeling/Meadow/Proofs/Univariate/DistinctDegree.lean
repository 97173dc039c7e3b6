import Mathlib
import Meadow.Proofs.Univariate.ModularFactor

set_option autoImplicit false

/-!
# Factors of one degree

`ModPoly.DegreePart f g d` says that the irreducible divisors of the monic squarefree `g` are
those of `f` that have degree `d`; then `g` is the product of the monic ones
(`ModPoly.DegreePart.exists_eq_prod`).  An irreducible polynomial divides `X ^ (p ^ n) - X` if
and only if its degree divides `n`.  As the search for degrees goes up and every part is taken
off, what is left has irreducible divisors of higher degrees only, so the greatest common
divisor with that polynomial is the part of the next degree (`ModPoly.degreePart_of_dvd_iff`),
and what has no room for two more of them is a part itself (`ModPoly.degreePart_whole`).

A part is split into factors whose degrees are multiples of its degree, whatever the random
polynomials are.  The last theorem says what the factors modulo the chosen prime, the parts by
degree and the factors of a part are (`modularFactorization_correct`).
-/

namespace Meadow

namespace ModPoly

open Polynomial

variable {p : ℕ} [Fact p.Prime] {f g k q : (ZMod p)[X]}

/-! ## Irreducible divisors of one degree -/

/-- The irreducible divisors of `g` are those of `f` of degree `d`. -/
structure DegreePart (f g : (ZMod p)[X]) (d : ℕ) : Prop where
  monic : g.Monic
  squarefree : Squarefree g
  dvd_iff : ∀ q, Irreducible q → (q ∣ g ↔ q ∣ f ∧ q.natDegree = d)

/-- A part is the product of the monic irreducible divisors of its degree. -/
theorem DegreePart.exists_eq_prod {d : ℕ} (h : DegreePart f g d) :
    ∃ S : Finset (ZMod p)[X],
      (∀ q, q ∈ S ↔ q.Monic ∧ Irreducible q ∧ q ∣ f ∧ q.natDegree = d) ∧ g = ∏ q ∈ S, q := by
  have hg := h.monic.ne_zero
  have hnodup :=
    (UniqueFactorizationMonoid.squarefree_iff_nodup_normalizedFactors hg).1 h.squarefree
  refine ⟨⟨UniqueFactorizationMonoid.normalizedFactors g, hnodup⟩, fun q => ?_, ?_⟩
  · rw [Finset.mem_mk, Polynomial.mem_normalizedFactors_iff hg]
    constructor
    · rintro ⟨hirr, hmonic, hdvd⟩
      exact ⟨hmonic, hirr, (h.dvd_iff q hirr).1 hdvd⟩
    · rintro ⟨hmonic, hirr, hdvd⟩
      exact ⟨hirr, hmonic, (h.dvd_iff q hirr).2 hdvd⟩
  · rw [Finset.prod_mk, Multiset.map_id', UniqueFactorizationMonoid.prod_normalizedFactors_eq hg,
      h.monic.normalize_eq_self]

/-- A part of a cofactor is one of the whole, if the other factor has no irreducible divisors
of that degree. -/
theorem DegreePart.of_cofactor {d : ℕ} {e : (ZMod p)[X]} (h : DegreePart e g d)
    (hother : ∀ q, Irreducible q → q ∣ f → q.natDegree ≠ d) : DegreePart (f * e) g d := by
  refine ⟨h.monic, h.squarefree, fun q hq => ?_⟩
  rw [h.dvd_iff q hq]
  refine and_congr_left fun hdegree => ⟨fun hdvd => hdvd.mul_left f, fun hdvd => ?_⟩
  exact (hq.prime.dvd_or_dvd hdvd).resolve_left fun hf => hother q hq hf hdegree

/-- Multiples of `d` add up to multiples of `d`. -/
theorem dvd_natDegree {d : ℕ} (hf : f ≠ 0)
    (h : ∀ q, Irreducible q → q ∣ f → d ∣ q.natDegree) : d ∣ f.natDegree := by
  induction f using WfDvdMonoid.induction_on_irreducible with
  | zero => exact absurd rfl hf
  | unit u hu =>
    rw [natDegree_eq_zero_of_isUnit hu]
    exact dvd_zero d
  | mul a q ha hq ih =>
    rw [natDegree_mul hq.ne_zero ha]
    exact dvd_add (h q hq (dvd_mul_right q a))
      (ih ha fun r hr hdvd => h r hr (hdvd.mul_left q))

theorem DegreePart.dvd_natDegree {d : ℕ} (h : DegreePart f g d) (hg : k ∣ g) :
    d ∣ k.natDegree := by
  refine ModPoly.dvd_natDegree (ne_zero_of_dvd_ne_zero h.monic.ne_zero hg) fun q hq hdvd => ?_
  exact dvd_of_eq ((h.dvd_iff q hq).1 (hdvd.trans hg)).2.symm

/-! ## Splitting by degree -/

/-- All irreducible divisors have a degree above `d`. -/
def DegreesAbove (f : (ZMod p)[X]) (d : ℕ) : Prop := ∀ q, Irreducible q → q ∣ f → d < q.natDegree

theorem degreesAbove_zero (f : (ZMod p)[X]) : DegreesAbove f 0 := fun _ hq _ => hq.natDegree_pos

/-- An irreducible divisor of `f` divides what is `X ^ (p ^ n) - X` modulo `f` if and only if its
degree divides `n`. -/
theorem dvd_sub_X_iff {n : ℕ} (hq : Irreducible q) (hqf : q ∣ f)
    (hk : f ∣ k - Polynomial.X ^ p ^ n) : q ∣ k - Polynomial.X ↔ q.natDegree ∣ n := by
  have hsplit : k - Polynomial.X
      = (k - Polynomial.X ^ p ^ n) + (Polynomial.X ^ p ^ n - Polynomial.X) := by ring
  rw [hsplit, dvd_add_right (hqf.trans hk), hq.natDegree_dvd_iff_dvd_X_pow_card_pow_sub_X,
    Nat.card_zmod]

theorem dvd_mod_sub (h : f ∣ k - q) : f ∣ k % f - q := by
  have hmod : k % f - q = k - q - f * (k / f) := by
    linear_combination EuclideanDomain.div_add_mod k f
  rw [hmod]
  exact dvd_sub h (dvd_mul_right _ _)

/-- One more power of the prime in the exponent, modulo `f`. -/
theorem dvd_pow_mod_sub {d : ℕ} (hk : f ∣ k - Polynomial.X ^ p ^ d) :
    f ∣ k ^ p % f - Polynomial.X ^ p ^ (d + 1) := by
  refine dvd_mod_sub ?_
  rw [pow_succ, pow_mul]
  exact hk.trans (sub_dvd_pow_sub_pow _ _ p)

/-- Above `d`, a greatest common divisor with `X ^ (p ^ (d + 1)) - X` is the part of degree
`d + 1`. -/
theorem degreePart_of_dvd_iff {d : ℕ} (hmonic : g.Monic) (hg : Squarefree g)
    (habove : DegreesAbove f d) (hk : f ∣ k - Polynomial.X ^ p ^ (d + 1))
    (hdvd : ∀ q, q ∣ g ↔ q ∣ k - Polynomial.X ∧ q ∣ f) : DegreePart f g (d + 1) := by
  refine ⟨hmonic, hg, fun q hq => ?_⟩
  rw [hdvd, and_comm]
  refine and_congr_right fun hqf => ?_
  rw [dvd_sub_X_iff hq hqf hk]
  have hlt := habove q hq hqf
  constructor
  · intro hdegree
    have hle := Nat.le_of_dvd (Nat.succ_pos d) hdegree
    omega
  · intro hdegree
    exact dvd_of_eq hdegree

/-- What a part of degree `d + 1` leaves has irreducible divisors of higher degrees only. -/
theorem DegreePart.degreesAbove_cofactor {d : ℕ} {e : (ZMod p)[X]}
    (h : DegreePart (g * e) g (d + 1)) (hsquarefree : Squarefree (g * e))
    (habove : DegreesAbove (g * e) d) : DegreesAbove e (d + 1) := by
  intro q hq hdvd
  have hlt := habove q hq (hdvd.mul_left g)
  refine lt_of_le_of_ne hlt fun hdegree => hq.not_isUnit ?_
  exact hsquarefree q (mul_dvd_mul ((h.dvd_iff q hq).2 ⟨hdvd.mul_left g, hdegree.symm⟩) hdvd)

/-- There is no room for two irreducible divisors. -/
theorem irreducible_of_degreesAbove {d : ℕ} (hf : f.Monic) (hpos : 0 < f.natDegree)
    (habove : DegreesAbove f d) (hroom : f.natDegree < 2 * (d + 1)) : Irreducible f := by
  have hunit {r : (ZMod p)[X]} (hr : ¬ IsUnit r) (hdvd : r ∣ f) : d < r.natDegree := by
    obtain ⟨q, hq, hqr⟩ := WfDvdMonoid.exists_irreducible_factor hr
      (ne_zero_of_dvd_ne_zero hf.ne_zero hdvd)
    exact (habove q hq (hqr.trans hdvd)).trans_le
      (natDegree_le_of_dvd hqr (ne_zero_of_dvd_ne_zero hf.ne_zero hdvd))
  refine ⟨fun h => ?_, fun a b hab => ?_⟩
  · have hzero := natDegree_eq_zero_of_isUnit h
    omega
  · by_contra hproper
    rw [not_or] at hproper
    have ha := hunit hproper.1 (Dvd.intro b hab.symm)
    have hb := hunit hproper.2 (Dvd.intro_left a hab.symm)
    have hne := hf.ne_zero
    rw [hab] at hne hroom
    rw [natDegree_mul (left_ne_zero_of_mul hne) (right_ne_zero_of_mul hne)] at hroom
    omega

/-- An irreducible polynomial is the part of its own degree. -/
theorem degreePart_self (hf : f.Monic) (hirr : Irreducible f) : DegreePart f f f.natDegree := by
  refine ⟨hf, hirr.squarefree, fun q hq => ⟨fun hdvd => ⟨hdvd, ?_⟩, fun h => h.1⟩⟩
  exact natDegree_eq_of_degree_eq (degree_eq_degree_of_associated (hq.associated_of_dvd hirr hdvd))

section Steps

variable {a h : ModPoly} {d : ℕ}

theorem degreePart_whole (ha : Denotes p a f) (hf : f.Monic) (habove : DegreesAbove f d)
    (hroom : a.length ≤ 2 * (d + 1)) :
    ∀ part ∈ if a.length > 1 then [(a, a.degree)] else [],
      d < part.2 ∧ DegreePart f (toPolynomial p part.1) part.2 := by
  split
  · next hlength =>
    rw [ha.length_of_monic hf] at hroom hlength
    have hirr := irreducible_of_degreesAbove hf (by omega) habove (by omega)
    have hdegree : a.degree = f.natDegree := ha.natDegree_eq.symm
    rw [List.forall_mem_singleton, hdegree, ha.eq]
    exact ⟨habove f hirr dvd_rfl, degreePart_self hf hirr⟩
  · exact List.forall_mem_nil _

variable [Fact (p < primeLimit)]

/-- Every part that the steps split off belongs to its degree.  The steps are as many as the
degrees that can still occur. -/
theorem degreePart_degreeSteps {steps : ℕ} (ha : Denotes p a f) (hf : f.Monic)
    (hsquarefree : Squarefree f) (habove : DegreesAbove f d) (hh : Denotes p h k)
    (hk : f ∣ k - Polynomial.X ^ p ^ d) (hsteps : a.length ≤ 2 * (d + 1) + steps) :
    ∀ part ∈ degreeSteps p steps d a h,
      d < part.2 ∧ DegreePart f (toPolynomial p part.1) part.2 := by
  induction steps generalizing a f h k d with
  | zero => exact degreePart_whole ha hf habove hsteps
  | succ steps ih =>
    rw [degreeSteps]
    dsimp only
    split
    · have hpow := ha.powMod hh p
      have hk' := dvd_pow_mod_sub hk
      obtain ⟨g, e, rfl, hdvd, hg, hgmonic, he, hemonic⟩ :=
        exists_gcd_mul_div (hpow.sub denotes_X) ha hf
      have hpart := degreePart_of_dvd_iff hgmonic (hsquarefree.squarefree_of_dvd
        (dvd_mul_right g e)) habove hk' hdvd
      have habove' := hpart.degreesAbove_cofactor hsquarefree habove
      split
      · rw [List.forall_mem_cons, hg.eq]
        refine ⟨⟨Nat.lt_succ_self d, hpart⟩, fun part hmem => ?_⟩
        have hmod := dvd_mod_sub ((dvd_mul_left e g).trans hk')
        have hlength : (div p a (gcd p (sub p (powMod p h p a) ModPoly.X) a)).length
            ≤ 2 * (d + 1 + 1) + steps := by
          rw [ha.length_of_monic hf, hgmonic.natDegree_mul hemonic] at hsteps
          rw [he.length_of_monic hemonic]
          omega
        obtain ⟨hlt, hrest⟩ := ih he hemonic (hsquarefree.squarefree_of_dvd (dvd_mul_left e g))
          habove' (hpow.rem he) hmod hlength part hmem
        exact ⟨(Nat.lt_succ_self d).trans hlt, hrest.of_cofactor fun q hq hqg =>
          (((hpart.dvd_iff q hq).1 hqg).2.trans_lt hlt).ne⟩
      · next hshort =>
        have hg1 : g = 1 := by
          rw [hg.length_of_monic hgmonic] at hshort
          exact hgmonic.natDegree_eq_zero.1 (by omega)
        have habove'' : DegreesAbove (g * e) (d + 1) := by rwa [hg1, one_mul]
        intro part hmem
        obtain ⟨hlt, hrest⟩ := ih ha hf hsquarefree habove'' hpow hk' (by omega) part hmem
        exact ⟨(Nat.lt_succ_self d).trans hlt, hrest⟩
    · next hroom => exact degreePart_whole ha hf habove (not_lt.1 hroom)

/-- The parts of a monic squarefree polynomial belong to their degrees. -/
theorem degreePart_distinctDegree (ha : Denotes p a f) (hf : f.Monic) (hsquarefree : Squarefree f) :
    ∀ part ∈ distinctDegree p a,
      0 < part.2 ∧ DegreePart f (toPolynomial p part.1) part.2 := by
  refine degreePart_degreeSteps ha hf hsquarefree (degreesAbove_zero f) denotes_X ?_ (by omega)
  rw [pow_zero, pow_one, sub_self]
  exact dvd_zero f

/-! ## Splitting a part -/

/-- Whatever the random polynomials are, a part is split into factors of degrees that are
multiples of its degree. -/
theorem splitting_equalDegree {part : ModPoly × ℕ} (hmem : part ∈ distinctDegree p a)
    (ha : Denotes p a f) (hf : f.Monic) (hsquarefree : Squarefree f) (s : WordSource) :
    Splitting p (toPolynomial p part.1) (equalDegree p part.2 part.1 s).1 ∧
      ∀ b ∈ (equalDegree p part.2 part.1 s).1, part.2 ∣ (toPolynomial p b).natDegree := by
  have hsplit := splitting_distinctDegree ha hf
  have hmem' := List.mem_map_of_mem (f := Prod.fst) hmem
  have hpart : Splitting p (toPolynomial p part.1) (equalDegree p part.2 part.1 s).1 :=
    splitting_equalDegreeSteps (hsplit.denotes _ hmem') (hsplit.monic _ hmem')
      (hsplit.length _ hmem')
  refine ⟨hpart, fun b hb => ?_⟩
  refine (degreePart_distinctDegree ha hf hsquarefree part hmem).2.dvd_natDegree ?_
  rw [← hpart.prod]
  exact List.dvd_prod (List.mem_map_of_mem hb)

end Steps
end ModPoly

open Polynomial
open ModPoly (Denotes toPolynomial distinctDegree equalDegree)

/-- The prime chosen for an integer polynomial is odd, does not divide its leading coefficient
and leaves it squarefree of the same degree; the factors modulo it are monic, not constant and
pairwise coprime, and multiply to the monic multiple of the polynomial.  Modulo any prime within
the limit, the parts by degree of a monic squarefree polynomial multiply to it, and each is the
product of its monic irreducible divisors of the degree that the part comes with; from any state
of the source of random words on, a part is split into monic factors that multiply to it and
whose degrees are multiples of its degree. -/
theorem modularFactorization_correct :
    (∀ (f : IntPoly) (p : ℕ) (modular : List ModPoly), IntPoly.Trimmed f →
      modularFactors? f = some (p, modular) →
      p.Prime ∧ Odd p ∧ p < primeLimit ∧ ¬ (p : ℤ) ∣ f.lead ∧
      Squarefree (IntPoly.modulo p (IntPoly.toPolynomial f)) ∧
      (IntPoly.modulo p (IntPoly.toPolynomial f)).natDegree
        = (IntPoly.toPolynomial f).natDegree ∧
      (∀ a ∈ modular, Denotes p a (toPolynomial p a) ∧ (toPolynomial p a).Monic ∧
        0 < (toPolynomial p a).natDegree) ∧
      (modular.map (toPolynomial p)).Pairwise IsCoprime ∧
      (modular.map (toPolynomial p)).prod
        = IntPoly.modulo p (IntPoly.toPolynomial f) * C (f.lead : ZMod p)⁻¹) ∧
    (∀ (p : ℕ) (a : ModPoly) (f : (ZMod p)[X]), p.Prime → p < primeLimit → Denotes p a f →
      f.Monic → Squarefree f →
      ((distinctDegree p a).map fun part => toPolynomial p part.1).prod = f ∧
      ∀ part ∈ distinctDegree p a,
        (∃ S : Finset (ZMod p)[X],
          (∀ q, q ∈ S ↔ q.Monic ∧ Irreducible q ∧ q ∣ f ∧ q.natDegree = part.2) ∧
          toPolynomial p part.1 = ∏ q ∈ S, q) ∧
        ∀ s : WordSource,
          ((equalDegree p part.2 part.1 s).1.map (toPolynomial p)).prod
            = toPolynomial p part.1 ∧
          ∀ b ∈ (equalDegree p part.2 part.1 s).1, Denotes p b (toPolynomial p b) ∧
            (toPolynomial p b).Monic ∧ part.2 ∣ (toPolynomial p b).natDegree) := by
  refine ⟨fun f p modular hf hmodular => ?_, fun p a f hprime hlt ha hmonic hsquarefree => ?_⟩
  · obtain ⟨hgood, hsplit⟩ := modularFactors?_eq_some hf hmodular
    have : Fact p.Prime := ⟨hgood.prime⟩
    refine ⟨hgood.prime, odd_of_modularFactors?_eq_some hmodular, hgood.lt, ?_,
      hgood.separable.squarefree, ?_, fun a ha => ⟨hsplit.denotes a ha, hsplit.monic a ha, ?_⟩,
      hsplit.pairwise_isCoprime hgood.separable_monicModulo, hsplit.prod⟩
    · rw [← ZMod.intCast_zmod_eq_zero_iff_dvd]
      exact hgood.lead
    · refine IntPoly.natDegree_modulo ?_
      rw [hf.leadingCoeff_eq]
      exact hgood.lead
    · rw [(hsplit.denotes a ha).natDegree_eq]
      exact Nat.sub_pos_of_lt (hsplit.length a ha)
  · have : Fact p.Prime := ⟨hprime⟩
    have : Fact (p < primeLimit) := ⟨hlt⟩
    refine ⟨?_, fun part hmem => ⟨?_, fun s => ?_⟩⟩
    · have hprod := (ModPoly.splitting_distinctDegree ha hmonic).prod
      rwa [List.map_map] at hprod
    · exact (ModPoly.degreePart_distinctDegree ha hmonic hsquarefree part hmem).2.exists_eq_prod
    · obtain ⟨hsplit, hdvd⟩ := ModPoly.splitting_equalDegree hmem ha hmonic hsquarefree s
      exact ⟨hsplit.prod, fun b hb => ⟨hsplit.denotes b hb, hsplit.monic b hb, hdvd b hb⟩⟩

/-- The polynomial `x ^ 4 + 1` is factored modulo 3, where it is a single part of degree two. -/
theorem modularFactorization_correct_quartic :
    modularFactors? [1, 0, 0, 0, 1] = some (3, [[2, 2, 1], [2, 1, 1]]) ∧
      IsCoprime (toPolynomial 3 [2, 2, 1]) (toPolynomial 3 [2, 1, 1]) ∧
      distinctDegree 3 [1, 0, 0, 0, 1] = [([1, 0, 0, 0, 1], 2)] ∧
      (∃ S : Finset (ZMod 3)[X],
        (∀ q, q ∈ S ↔ q.Monic ∧ Irreducible q ∧ q ∣ X ^ 4 + 1 ∧ q.natDegree = 2) ∧
        X ^ 4 + 1 = ∏ q ∈ S, q) ∧
      ∀ s, ∀ b ∈ (equalDegree 3 2 [1, 0, 0, 0, 1] s).1, 2 ∣ (toPolynomial 3 b).natDegree := by
  have hprime : Nat.Prime 3 := Nat.prime_three
  have hmodular : modularFactors? [1, 0, 0, 0, 1] = some (3, [[2, 2, 1], [2, 1, 1]]) := by
    decide +kernel
  have hparts : distinctDegree 3 [1, 0, 0, 0, 1] = [([1, 0, 0, 0, 1], 2)] := by decide +kernel
  have hpolynomial : toPolynomial 3 [1, 0, 0, 0, 1] = X ^ 4 + 1 := by
    simp [toPolynomial]
    ring
  have hdenotes : Denotes 3 [1, 0, 0, 0, 1] (X ^ 4 + 1) := ⟨by decide, by simp, hpolynomial⟩
  have hmonic : (X ^ 4 + 1 : (ZMod 3)[X]).Monic := monic_X_pow_add_C 1 four_ne_zero
  have hseparable : (X ^ 4 + 1 : (ZMod 3)[X]).Separable := by
    have hthree : (3 : (ZMod 3)[X]) = 0 := CharP.cast_eq_zero (ZMod 3)[X] 3
    refine ⟨1, -X, ?_⟩
    simp only [derivative_add, derivative_X_pow, derivative_one, map_natCast]
    push_cast
    linear_combination (-X ^ 4) * hthree
  obtain ⟨-, -, -, -, -, -, -, hcoprime, -⟩ :=
    modularFactorization_correct.1 [1, 0, 0, 0, 1] 3 _ (by simp [IntPoly.Trimmed]) hmodular
  obtain ⟨hproduct, hsplit⟩ := (modularFactorization_correct.2 3 [1, 0, 0, 0, 1] _ hprime
    (by decide) hdenotes hmonic hseparable.squarefree).2 ([1, 0, 0, 0, 1], 2) (by simp [hparts])
  rw [hpolynomial] at hproduct
  exact ⟨hmodular, List.pairwise_pair.1 hcoprime, hparts, hproduct,
    fun s b hb => ((hsplit s).2 b hb).2.2⟩

end Meadow
