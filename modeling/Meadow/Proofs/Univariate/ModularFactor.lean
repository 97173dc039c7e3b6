import Mathlib
import Meadow.Proofs.Univariate.Modular
import Meadow.Univariate.ModularFactor

set_option autoImplicit false

/-!
# Factorization modulo a prime

The factors modulo the chosen prime are monic and multiply to the monic multiple of the
polynomial (`modularFactors?_eq_some`): each is split off as a greatest common divisor, and
what is left is the exact quotient (`ModPoly.exists_gcd_mul_div`), so nothing depends on the
random polynomials that the splits use.  The prime is one that keeps the polynomial
squarefree and of the same degree (`PrimeChoice.ofPoly?_eq_some`), so the factors modulo it are
pairwise coprime (`ModPoly.Splitting.pairwise_isCoprime`).
-/

namespace Meadow

namespace ModPoly

open Polynomial

variable {p : ℕ} {a b h : ModPoly} {f g k : (ZMod p)[X]}

/-! ## Splitting off a factor -/

/-- The lists stand for monic polynomials of positive degree that multiply to `f`. -/
structure Splitting (p : ℕ) (f : (ZMod p)[X]) (l : List ModPoly) : Prop where
  denotes : ∀ a ∈ l, Denotes p a (toPolynomial p a)
  monic : ∀ a ∈ l, (toPolynomial p a).Monic
  length : ∀ a ∈ l, 1 < a.length
  prod : (l.map (toPolynomial p)).prod = f

theorem Splitting.append {l m : List ModPoly} (hl : Splitting p f l) (hm : Splitting p g m) :
    Splitting p (f * g) (l ++ m) where
  denotes := List.forall_mem_append.2 ⟨hl.denotes, hm.denotes⟩
  monic := List.forall_mem_append.2 ⟨hl.monic, hm.monic⟩
  length := List.forall_mem_append.2 ⟨hl.length, hm.length⟩
  prod := by rw [List.map_append, List.prod_append, hl.prod, hm.prod]

/-- A product that is separable has pairwise coprime factors. -/
theorem pairwise_isCoprime_of_separable {K : Type*} [Field K] {l : List K[X]}
    (h : l.prod.Separable) : l.Pairwise IsCoprime := by
  induction l with
  | nil => exact List.Pairwise.nil
  | cons x l ih =>
    rw [List.prod_cons] at h
    refine List.pairwise_cons.2 ⟨?_, ih h.of_mul_right⟩
    intro y hy
    exact h.isCoprime.of_isCoprime_of_dvd_right (List.dvd_prod hy)

theorem splitting_nil : Splitting p 1 [] :=
  ⟨List.forall_mem_nil _, List.forall_mem_nil _, List.forall_mem_nil _, rfl⟩

theorem splitting_singleton (ha : Denotes p a f) (hf : f.Monic) (hlength : 1 < a.length) :
    Splitting p f [a] := by
  refine ⟨List.forall_mem_singleton.2 (ha.of_eq ha.eq.symm), List.forall_mem_singleton.2 ?_,
    List.forall_mem_singleton.2 hlength, ?_⟩
  · rwa [ha.eq]
  · rw [List.map_singleton, List.prod_singleton, ha.eq]

variable [Fact p.Prime]

theorem Splitting.pairwise_isCoprime {l : List ModPoly} (h : Splitting p f l) (hf : f.Separable) :
    (l.map (toPolynomial p)).Pairwise IsCoprime :=
  pairwise_isCoprime_of_separable (h.prod.symm ▸ hf)

theorem Denotes.length_of_monic (ha : Denotes p a f) (hf : f.Monic) :
    a.length = f.natDegree + 1 := by
  have hpos := List.length_pos_of_ne_nil (mt ha.eq_nil_iff.1 hf.ne_zero)
  rw [ha.natDegree_eq]
  omega

/-- A polynomial that is left whole unless it is constant. -/
theorem splitting_whole (ha : Denotes p a f) (hf : f.Monic) :
    Splitting p f ((if a.length > 1 then [(a, a.degree)] else []).map Prod.fst) := by
  split
  · next hlength => exact splitting_singleton ha hf hlength
  · next hshort =>
    rw [ha.length_of_monic hf] at hshort
    rw [hf.natDegree_eq_zero.1 (by omega)]
    exact splitting_nil

variable [Fact (p < primeLimit)]

/-- A greatest common divisor and the quotient by it. -/
theorem exists_gcd_mul_div (ha : Denotes p a f) (hb : Denotes p b g) (hg : g.Monic) :
    ∃ d e, g = d * e ∧ (∀ q, q ∣ d ↔ q ∣ f ∧ q ∣ g) ∧ Denotes p (gcd p a b) d ∧ d.Monic ∧
      Denotes p (div p b (gcd p a b)) e ∧ e.Monic := by
  have hgcd0 : EuclideanDomain.gcd g f ≠ 0 := fun h0 =>
    hg.ne_zero (EuclideanDomain.gcd_eq_zero_iff.1 h0).1
  have hmonic := monic_mul_leadingCoeff_inv hgcd0
  have hdvd (q : (ZMod p)[X]) :
      q ∣ EuclideanDomain.gcd g f * C (EuclideanDomain.gcd g f).leadingCoeff⁻¹ ↔ q ∣ f ∧ q ∣ g :=
    dvd_monic_gcd_iff
  have hmul := EuclideanDomain.mul_div_cancel' hmonic.ne_zero ((hdvd _).1 dvd_rfl).2
  refine ⟨_, _, hmul.symm, hdvd, ha.gcd hb, hmonic, hb.div (ha.gcd hb), ?_⟩
  exact hmonic.of_mul_monic_left (by rwa [hmul])

/-! ## Splitting by degree -/

theorem splitting_degreeSteps {steps d : ℕ} (ha : Denotes p a f) (hf : f.Monic)
    (hh : Denotes p h k) : Splitting p f ((degreeSteps p steps d a h).map Prod.fst) := by
  induction steps generalizing a f h k d with
  | zero => exact splitting_whole ha hf
  | succ steps ih =>
    rw [degreeSteps]
    dsimp only
    split
    · have hpow := ha.powMod hh p
      obtain ⟨d', e, rfl, -, hd, hdmonic, he, hemonic⟩ :=
        exists_gcd_mul_div (hpow.sub denotes_X) ha hf
      split
      · next hlength =>
        rw [List.map_cons]
        exact (splitting_singleton hd hdmonic hlength).append (ih he hemonic (hpow.rem he))
      · exact ih ha hf hpow
    · exact splitting_whole ha hf

/-- The parts by degree multiply to the polynomial. -/
theorem splitting_distinctDegree (ha : Denotes p a f) (hf : f.Monic) :
    Splitting p f ((distinctDegree p a).map Prod.fst) :=
  splitting_degreeSteps ha hf denotes_X

/-! ## Splitting factors of one degree -/

theorem exists_denotes_coefficients (n : ℕ) (s : WordSource) :
    ∃ f, Denotes p (trim (WordSource.coefficients p n s).1) f := by
  refine ⟨_, denotes_trim ?_⟩
  induction n generalizing s with
  | zero => exact List.forall_mem_nil _
  | succ n ih =>
    refine List.forall_mem_cons.2 ⟨?_, ih _⟩
    rw [UInt64.toNat_mod, Residue.toNat_toUInt64 Fact.out]
    exact Nat.mod_lt _ (NeZero.pos p)

/-- A split is made of a greatest common divisor and the quotient by it, both of positive
degree. -/
theorem exists_of_drawSplit {e attempts : ℕ} {s : WordSource} {a b c : ModPoly}
    (ha : Denotes p a f) (hf : f.Monic)
    (hsplit : (drawSplit p a e attempts s).1 = some (b, c)) :
    ∃ g k, f = g * k ∧ Denotes p b g ∧ g.Monic ∧ 1 < b.length ∧
      Denotes p c k ∧ k.Monic ∧ 1 < c.length := by
  induction attempts generalizing s with
  | zero => cases hsplit
  | succ attempts ih =>
    rw [drawSplit] at hsplit
    obtain ⟨r, hr⟩ := exists_denotes_coefficients (p := p) a.degree s
    dsimp only at hsplit
    split at hsplit
    · exact ih hsplit
    · obtain ⟨d, q, rfl, -, hd, hdmonic, hq, hqmonic⟩ :=
        exists_gcd_mul_div ((ha.powMod hr e).sub denotes_one) ha hf
      split at hsplit
      · next hlength =>
        rw [Option.some.injEq, Prod.mk.injEq] at hsplit
        obtain ⟨rfl, rfl⟩ := hsplit
        refine ⟨d, q, rfl, hd, hdmonic, hlength.1, hq, hqmonic, ?_⟩
        have hlt := hlength.2
        rw [hd.length_of_monic hdmonic, ha.length_of_monic hf, hdmonic.natDegree_mul hqmonic] at hlt
        rw [hq.length_of_monic hqmonic]
        omega
      · exact ih hsplit

theorem splitting_equalDegreeSteps {d steps : ℕ} {s : WordSource} (ha : Denotes p a f)
    (hf : f.Monic) (hlength : 1 < a.length) : Splitting p f (equalDegreeSteps p d steps a s).1 := by
  induction steps generalizing a f s with
  | zero => exact splitting_singleton ha hf hlength
  | succ steps ih =>
    rw [equalDegreeSteps]
    split
    · exact splitting_singleton ha hf hlength
    · split
      · exact splitting_singleton ha hf hlength
      · next b c s' hsplit =>
        obtain ⟨g, k, rfl, hb, hg, hblength, hc, hk, hclength⟩ :=
          exists_of_drawSplit ha hf (congrArg Prod.fst hsplit)
        exact (ih hb hg hblength).append (ih hc hk hclength)

/-- Splitting the parts leaves their product as it is. -/
theorem splitting_equalDegrees {parts : List (ModPoly × ℕ)} {s : WordSource}
    (h : Splitting p f (parts.map Prod.fst)) : Splitting p f (equalDegrees p parts s) := by
  induction parts generalizing f s with
  | nil => exact h
  | cons part parts ih =>
    obtain ⟨a, d⟩ := part
    rw [List.map_cons] at h
    have hrest := ih (s := (equalDegree p d a s).2)
      ⟨(List.forall_mem_cons.1 h.denotes).2, (List.forall_mem_cons.1 h.monic).2,
        (List.forall_mem_cons.1 h.length).2, rfl⟩
    have hpart : Splitting p (toPolynomial p a) (equalDegree p d a s).1 :=
      splitting_equalDegreeSteps (List.forall_mem_cons.1 h.denotes).1
        (List.forall_mem_cons.1 h.monic).1 (List.forall_mem_cons.1 h.length).1
    have hsplit := hpart.append hrest
    rw [← List.prod_cons, ← List.map_cons, h.prod] at hsplit
    exact hsplit

end ModPoly

/-! ## The choice of a prime -/

theorem not_dvd_of_noDivisorFrom {n d steps i : ℕ} (h : noDivisorFrom n steps i = true)
    (hi : i ≤ d) (hd : d < i + steps) (hsq : d * d ≤ n) : ¬ d ∣ n := by
  induction steps generalizing i with
  | zero => omega
  | succ steps ih =>
    rw [noDivisorFrom] at h
    split at h
    · next hlarge =>
      exact absurd hsq (not_le.2 (hlarge.trans_le (Nat.mul_le_mul hi hi)))
    · split at h
      · cases h
      · next hmod =>
        rcases Nat.eq_or_lt_of_le hi with rfl | hlt
        · exact fun hdvd => hmod (Nat.mod_eq_zero_of_dvd hdvd)
        · exact ih h hlt (by omega)

/-- A number without divisors up to its root is prime. -/
theorem prime_of_isPrime {n : ℕ} (h : isPrime n = true) : n.Prime := by
  rw [isPrime, Bool.and_eq_true, decide_eq_true_eq] at h
  by_contra hprime
  have hsq := Nat.minFac_sq_le_self (by omega) hprime
  rw [sq] at hsq
  have htwo := (Nat.minFac_prime (n := n) (by omega)).two_le
  have hle := Nat.minFac_le (n := n) (by omega)
  exact not_dvd_of_noDivisorFrom h.2 htwo (by omega) hsq n.minFac_dvd

namespace IntPoly

open Polynomial

/-- A prime that fits the words and leaves a polynomial squarefree and of the same degree. -/
structure GoodPrime (p : ℕ) (f : IntPoly) : Prop where
  prime : p.Prime
  lt : p < primeLimit
  lead : (f.lead : ZMod p) ≠ 0
  separable : (modulo p (toPolynomial f)).Separable

/-- The monic multiple of the polynomial modulo a prime. -/
noncomputable def monicModulo (p : ℕ) (f : IntPoly) : (ZMod p)[X] :=
  modulo p (toPolynomial f) * C (f.lead : ZMod p)⁻¹

theorem GoodPrime.separable_monicModulo {p : ℕ} {f : IntPoly} (h : GoodPrime p f) :
    (monicModulo p f).Separable := by
  have : Fact p.Prime := ⟨h.prime⟩
  refine h.separable.of_dvd (Dvd.intro (C (f.lead : ZMod p)) ?_)
  rw [monicModulo, mul_assoc, ← C_mul, inv_mul_cancel₀ h.lead, C_1, mul_one]

end IntPoly

namespace PrimeChoice

open Polynomial

/-- What every choice has that the search meets, the one it ends with has. -/
theorem of_search {f : IntPoly} {P : PrimeChoice → Prop} {candidates p wanted : ℕ}
    {best : Option PrimeChoice} {c : PrimeChoice} (hbest : ∀ b, best = some b → P b)
    (hof : ∀ q b, q % 2 = p % 2 → q + 2 ≤ p + 2 * candidates → isPrime q = true →
      of? f q = some b → P b)
    (h : search f candidates p wanted best = some c) : P c := by
  induction candidates generalizing p wanted best with
  | zero => exact hbest c h
  | succ candidates ih =>
    have hrest (q : ℕ) (b : PrimeChoice) (hmod : q % 2 = (p + 2) % 2)
        (hq : q + 2 ≤ p + 2 + 2 * candidates) := hof q b (by omega) (by omega)
    rw [search] at h
    split at h
    · exact ih hbest hrest h
    · next b hb =>
      have hb' : P b := by
        split at hb
        · next hprime => exact hof p b rfl (by omega) hprime hb
        · cases hb
      have hbetter : P (better best b) := by
        unfold better
        split
        · exact hb'
        · next b' =>
          split
          · exact hb'
          · exact hbest b' rfl
      dsimp only at h
      split at h
      · rw [← Option.some.inj h]
        exact hbetter
      · exact ih (fun b' heq => Option.some.inj heq ▸ hbetter) hrest h

/-- A prime is chosen if the leading coefficient is not a multiple of it and the polynomial
modulo the prime is coprime to its derivative. -/
theorem of?_eq_some {p : ℕ} {f : IntPoly} {c : PrimeChoice} (hf : IntPoly.Trimmed f)
    (hprime : p.Prime) (hlt : p < primeLimit) (h : of? f p = some c) :
    c.prime = p ∧ IntPoly.GoodPrime p f ∧
      ModPoly.Splitting p (IntPoly.monicModulo p f) (c.parts.map Prod.fst) := by
  have : Fact p.Prime := ⟨hprime⟩
  have : Fact (p < primeLimit) := ⟨hlt⟩
  have hdenotes := ModPoly.denotes_ofInts (p := p) f
  rw [of?] at h
  split at h
  · cases h
  · next hmod =>
    have hlead : (f.lead : ZMod p) ≠ 0 := by
      rw [Ne, ZMod.intCast_zmod_eq_zero_iff_dvd]
      exact fun hdvd => hmod (Int.emod_eq_zero_of_dvd hdvd)
    have hleading := hf.leadingCoeff_modulo hlead
    have hne : IntPoly.modulo p (IntPoly.toPolynomial f) ≠ 0 := by
      rw [← leadingCoeff_ne_zero, hleading]
      exact hlead
    dsimp only at h
    split at h
    · cases h
    · next hshort =>
      have hseparable : (IntPoly.modulo p (IntPoly.toPolynomial f)).Separable :=
        hdenotes.isCoprime_of_length_gcd hdenotes.derivative hne (not_lt.1 hshort)
      have hmonic := hdenotes.monic
      rw [hleading] at hmonic
      rw [← Option.some.inj h]
      refine ⟨rfl, ⟨hprime, hlt, hlead, hseparable⟩, ?_⟩
      refine ModPoly.splitting_distinctDegree hmonic ?_
      rw [IntPoly.monicModulo, ← hleading]
      exact monic_mul_leadingCoeff_inv hne

theorem prime_of_of?_eq_some {p : ℕ} {f : IntPoly} {c : PrimeChoice} (h : of? f p = some c) :
    c.prime = p := by
  rw [of?] at h
  split at h
  · cases h
  · dsimp only at h
    split at h
    · cases h
    · rw [← Option.some.inj h]

/-- Every second number is looked at, from three on. -/
theorem odd_of_ofPoly?_eq_some {f : IntPoly} {c : PrimeChoice} (h : ofPoly? f = some c) :
    Odd c.prime := by
  refine of_search (P := fun c => Odd c.prime) ?_ ?_ h
  · intro b hnone
    cases hnone
  · intro q b hmod _ _ hb
    rwa [prime_of_of?_eq_some hb, Nat.odd_iff]

/-- The prime that the search ends with is good, and the parts make up the polynomial. -/
theorem ofPoly?_eq_some {f : IntPoly} {c : PrimeChoice} (hf : IntPoly.Trimmed f)
    (h : ofPoly? f = some c) :
    IntPoly.GoodPrime c.prime f ∧
      ModPoly.Splitting c.prime (IntPoly.monicModulo c.prime f) (c.parts.map Prod.fst) := by
  refine of_search (P := fun c => IntPoly.GoodPrime c.prime f ∧ ModPoly.Splitting c.prime
    (IntPoly.monicModulo c.prime f) (c.parts.map Prod.fst)) ?_ ?_ h
  · intro b hnone
    cases hnone
  · intro q b _ hq hprime hb
    have hlt : q < primeLimit := by
      have hlimit : primeLimit = 1048576 := rfl
      omega
    obtain ⟨rfl, hgood, hsplit⟩ := of?_eq_some hf (prime_of_isPrime hprime) hlt hb
    exact ⟨hgood, hsplit⟩

end PrimeChoice

theorem odd_of_modularFactors?_eq_some {p : ℕ} {f : IntPoly} {modular : List ModPoly}
    (h : modularFactors? f = some (p, modular)) : Odd p := by
  obtain ⟨c, hc, heq⟩ := Option.map_eq_some_iff.1 h
  rw [Prod.mk.injEq] at heq
  rw [← heq.1]
  exact PrimeChoice.odd_of_ofPoly?_eq_some hc

/-- The prime is good, and the factors are monic and multiply to the monic multiple of the
polynomial. -/
theorem modularFactors?_eq_some {p : ℕ} {f : IntPoly} {modular : List ModPoly}
    (hf : IntPoly.Trimmed f) (h : modularFactors? f = some (p, modular)) :
    IntPoly.GoodPrime p f ∧ ModPoly.Splitting p (IntPoly.monicModulo p f) modular := by
  obtain ⟨c, hc, heq⟩ := Option.map_eq_some_iff.1 h
  rw [Prod.mk.injEq] at heq
  obtain ⟨rfl, rfl⟩ := heq
  obtain ⟨hgood, hsplit⟩ := PrimeChoice.ofPoly?_eq_some hf hc
  have : Fact c.prime.Prime := ⟨hgood.prime⟩
  have : Fact (c.prime < primeLimit) := ⟨hgood.lt⟩
  exact ⟨hgood, ModPoly.splitting_equalDegrees hsplit⟩

end Meadow
