import Mathlib
import Meadow.Proofs.Univariate.Reduction
import Meadow.Proofs.Univariate.Residue
import Meadow.Univariate.Hensel

set_option autoImplicit false

/-!
# Polynomials modulo a prime as polynomials

`ModPoly.Denotes p a f` says that the list `a` is well formed, its coefficients being below
`p` and the last one not zero, and stands for the polynomial `f` over the integers modulo
`p`.  Each operation on lists denotes the operation of that ring; the quotient and the
remainder are those of the division in it (`ModPoly.Denotes.div`, `ModPoly.Denotes.rem`), and
the steps of Euclid's algorithm end at its greatest common divisor
(`ModPoly.Denotes.gcdSteps`, `ModPoly.Denotes.bezout`).
-/

namespace Meadow

namespace ModPoly

open Polynomial

/-- The polynomial with the given coefficients. -/
noncomputable def toPolynomial (p : ℕ) (a : ModPoly) : (ZMod p)[X] :=
  a.foldr (fun c acc => C (c : ZMod p) + Polynomial.X * acc) 0

/-- A well-formed list of coefficients stands for a polynomial. -/
structure Denotes (p : ℕ) (a : ModPoly) (f : (ZMod p)[X]) : Prop where
  lt : ∀ c ∈ a, c < p
  last : a.getLast? ≠ some 0
  eq : toPolynomial p a = f

variable {p c x : ℕ} {a b : ModPoly} {f g : (ZMod p)[X]}

theorem denotes_nil : Denotes p [] 0 := ⟨List.forall_mem_nil _, nofun, rfl⟩

theorem length_cons_le (c : ℕ) (a : ModPoly) : (cons c a).length ≤ a.length + 1 := by
  cases a with
  | nil =>
    rw [cons]
    split
    · exact Nat.zero_le _
    · exact le_rfl
  | cons d ds => exact le_rfl

@[simp] theorem toPolynomial_nil : toPolynomial p [] = 0 := rfl

theorem toPolynomial_list_cons (c : ℕ) (a : ModPoly) :
    toPolynomial p (c :: a) = C (c : ZMod p) + Polynomial.X * toPolynomial p a := rfl

theorem toPolynomial_cons (c : ℕ) (a : ModPoly) :
    toPolynomial p (cons c a) = C (c : ZMod p) + Polynomial.X * toPolynomial p a := by
  cases a with
  | nil =>
    rw [cons]
    split
    · next h => simp [h, toPolynomial]
    · rfl
  | cons d ds => rfl

namespace Denotes

theorem eq_zero (h : Denotes p [] f) : f = 0 := h.eq.symm

theorem of_eq (h : Denotes p a f) (hfg : f = g) : Denotes p a g := hfg ▸ h

theorem trimmed_toInts (ha : Denotes p a f) : IntPoly.Trimmed a.toInts := by
  rw [IntPoly.Trimmed, toInts, List.getLast?_map]
  intro hlast
  obtain ⟨c, hc, h0⟩ := Option.map_eq_some_iff.1 hlast
  rw [Int.ofNat_eq_natCast, Int.natCast_eq_zero] at h0
  exact ha.last (h0 ▸ hc)

variable [Fact p.Prime]

/-- A constant coefficient under a polynomial times the variable. -/
theorem cons {z : ZMod p} (hc : Residue.Denotes p c z) (ha : Denotes p a f) :
    Denotes p (cons c a) (C z + Polynomial.X * f) := by
  refine ⟨?_, ?_, by rw [toPolynomial_cons, hc.eq, ha.eq]⟩
  · cases a with
    | nil =>
      rw [ModPoly.cons]
      split
      · exact List.forall_mem_nil _
      · exact List.forall_mem_singleton.2 hc.lt
    | cons d ds => exact List.forall_mem_cons.2 ⟨hc.lt, ha.lt⟩
  · cases a with
    | nil =>
      rw [ModPoly.cons]
      split
      · exact nofun
      · next h0 => exact fun hlast => h0 (Option.some.inj hlast)
    | cons d ds => exact ha.last

/-- The constant coefficient and the rest of a list. -/
theorem uncons (h : Denotes p (c :: a) f) :
    ∃ z g, f = C z + Polynomial.X * g ∧ Residue.Denotes p c z ∧ Denotes p a g := by
  refine ⟨_, _, h.eq.symm, ⟨h.lt c List.mem_cons_self, rfl⟩, ?_, ?_, rfl⟩
  · exact fun d hd => h.lt d (List.mem_cons_of_mem c hd)
  · cases a with
    | nil => exact nofun
    | cons d ds => exact h.last

/-! ## Degrees -/

theorem coeff (h : Denotes p a f) (i : ℕ) : Residue.Denotes p (a.getD i 0) (f.coeff i) := by
  induction a generalizing f i with
  | nil =>
    rw [h.eq_zero, coeff_zero, List.getD_nil]
    exact Residue.denotes_zero
  | cons c a ih =>
    obtain ⟨z, g, rfl, hc, ha⟩ := h.uncons
    cases i with
    | zero => simpa using hc
    | succ i => simpa [coeff_X_mul, coeff_C_succ] using ih ha i

theorem coeff_eq_zero {n : ℕ} (h : Denotes p a f) (hn : a.length ≤ n) : f.coeff n = 0 := by
  rw [← (h.coeff n).eq_zero_iff, List.getD_eq_default _ _ hn]

theorem coeff_length_sub_one (h : Denotes p a f) (ha : a ≠ []) : f.coeff (a.length - 1) ≠ 0 := by
  rw [Ne, ← (h.coeff _).eq_zero_iff, List.getD_eq_getElem?_getD, ← List.getLast?_eq_getElem?]
  intro h0
  have hsome := List.getLast?_eq_some_getLast ha
  rw [hsome, Option.getD_some] at h0
  exact h.last (h0 ▸ hsome)

/-- The length of a list bounds the degree from above, strictly. -/
theorem length_le_iff {n : ℕ} (h : Denotes p a f) : a.length ≤ n ↔ f.degree < n := by
  rw [degree_lt_iff_coeff_zero]
  constructor
  · intro hle m hm
    exact h.coeff_eq_zero (hle.trans hm)
  · intro hzero
    by_contra hlt
    have ha : a ≠ [] := by
      rintro rfl
      exact hlt (Nat.zero_le n)
    exact h.coeff_length_sub_one ha (hzero _ (by omega))

theorem eq_nil_iff (h : Denotes p a f) : a = [] ↔ f = 0 := by
  rw [← List.length_eq_zero_iff, ← Nat.le_zero, h.length_le_iff, Nat.cast_zero,
    Nat.WithBot.lt_zero_iff, degree_eq_bot]

/-- Only one well-formed list denotes a polynomial. -/
theorem unique (ha : Denotes p a f) (hb : Denotes p b f) : a = b := by
  induction a generalizing b f with
  | nil => exact (hb.eq_nil_iff.2 ha.eq_zero).symm
  | cons c a ih =>
    cases b with
    | nil => exact ha.eq_nil_iff.2 hb.eq_zero
    | cons d b =>
      have hhead : c = d := (ha.coeff 0).unique (hb.coeff 0)
      obtain ⟨z, g, rfl, hc, ha⟩ := ha.uncons
      obtain ⟨z', g', heq, hd, hb⟩ := hb.uncons
      have hz : z = z' := by rw [← hc.eq, ← hd.eq, hhead]
      rw [hz] at heq
      rw [← mul_left_cancel₀ X_ne_zero (add_left_cancel heq)] at hb
      rw [hhead, ih ha hb]

theorem natDegree_eq (h : Denotes p a f) : f.natDegree = a.length - 1 := by
  by_cases ha : a = []
  · rw [ha, h.eq_nil_iff.1 ha, natDegree_zero, List.length_nil]
  · refine natDegree_eq_of_le_of_coeff_ne_zero ?_ (h.coeff_length_sub_one ha)
    refine natDegree_le_iff_coeff_eq_zero.2 fun n hn => h.coeff_eq_zero (by omega)

theorem degree_lt_iff (ha : Denotes p a f) (hb : Denotes p b g) (hb0 : b ≠ []) :
    a.length < b.length ↔ f.degree < g.degree := by
  have hpos := List.length_pos_of_ne_nil hb0
  rw [degree_eq_natDegree (mt hb.eq_nil_iff.2 hb0), hb.natDegree_eq, ← ha.length_le_iff]
  omega

/-- The last word denotes the leading coefficient. -/
theorem leadingCoeff (h : Denotes p a f) : Residue.Denotes p (a.getLastD 0) f.leadingCoeff := by
  have hlast : a.getLastD 0 = a.getD (a.length - 1) 0 := by
    rw [List.getLastD_eq_getLast?, List.getLast?_eq_getElem?, List.getD_eq_getElem?_getD]
  rw [hlast, Polynomial.leadingCoeff, h.natDegree_eq]
  exact h.coeff _

theorem getLast (h : Denotes p a f) (ha : a ≠ []) :
    Residue.Denotes p (a.getLast ha) f.leadingCoeff := by
  have hlead := h.leadingCoeff
  rwa [List.getLastD_eq_getLast?, List.getLast?_eq_some_getLast ha, Option.getD_some] at hlead

/-- The leading coefficient is cancelled. -/
theorem degree_sub_leading_lt (ha : Denotes p a f) (hb : Denotes p b g) (hb0 : b ≠ [])
    (hlength : a.length = b.length) :
    (f - C (f.leadingCoeff * g.leadingCoeff⁻¹) * g).degree < (b.length - 1 : ℕ) := by
  have hg : g.leadingCoeff ≠ 0 := leadingCoeff_ne_zero.2 (mt hb.eq_nil_iff.2 hb0)
  rw [degree_lt_iff_coeff_zero]
  intro n hn
  rw [coeff_sub, coeff_C_mul]
  rcases Nat.eq_or_lt_of_le hn with rfl | hlt
  · have hf : f.coeff (b.length - 1) = f.leadingCoeff := by
      rw [Polynomial.leadingCoeff, ha.natDegree_eq, hlength]
    rw [hf, ← hb.natDegree_eq, coeff_natDegree, inv_mul_cancel_right₀ hg, sub_self]
  · rw [ha.coeff_eq_zero (by omega), hb.coeff_eq_zero (by omega), mul_zero, sub_zero]

end Denotes

/-! ## Integers, words and the variable -/

section

variable [Fact p.Prime]

/-- Words below `p` in a list denote a polynomial, once it is trimmed. -/
theorem denotes_trim {cs : List ℕ} (h : ∀ c ∈ cs, c < p) :
    Denotes p (trim cs) (toPolynomial p cs) := by
  induction cs with
  | nil => exact denotes_nil
  | cons c cs ih =>
    exact .cons ⟨h c List.mem_cons_self, rfl⟩ (ih fun d hd => h d (List.mem_cons_of_mem c hd))

theorem denotes_ofInts (cs : List ℤ) :
    Denotes p (ofInts p cs) (IntPoly.modulo p (IntPoly.toPolynomial cs)) := by
  induction cs with
  | nil => exact denotes_nil.of_eq (by rw [IntPoly.toPolynomial_nil, map_zero])
  | cons c cs ih =>
    have hnonneg := Int.emod_nonneg c (Int.natCast_ne_zero.2 (NeZero.ne p))
    have hc : Residue.Denotes p (c % (p : ℤ)).toNat (c : ZMod p) := by
      refine ⟨?_, ?_⟩
      · have hlt := Int.emod_lt_of_pos c (Int.natCast_pos.2 (NeZero.pos p))
        omega
      · rw [← Int.cast_natCast, Int.toNat_of_nonneg hnonneg, ZMod.intCast_mod]
    refine (Denotes.cons hc ih).of_eq ?_
    rw [IntPoly.toPolynomial_list_cons, map_add, map_mul, IntPoly.modulo_C, IntPoly.modulo_X]

theorem Denotes.modulo_toInts (ha : Denotes p a f) :
    IntPoly.modulo p (IntPoly.toPolynomial a.toInts) = f := by
  induction a generalizing f with
  | nil => rw [ha.eq_zero, toInts, List.map_nil, IntPoly.toPolynomial_nil, map_zero]
  | cons c a ih =>
    obtain ⟨c', f, rfl, hc, ha⟩ := ha.uncons
    rw [toInts, List.map_cons, ← toInts, IntPoly.toPolynomial_list_cons, map_add, map_mul, ih ha,
      IntPoly.modulo_C, IntPoly.modulo_X, Int.ofNat_eq_natCast, Int.cast_natCast, hc.eq]

theorem Denotes.degree_toInts_lt {n : ℕ} (ha : Denotes p a f) (h : f.degree < n) :
    (IntPoly.toPolynomial a.toInts).degree < n := by
  refine (IntPoly.degree_toPolynomial_lt _).trans_le ?_
  rw [toInts, List.length_map]
  exact_mod_cast ha.length_le_iff.2 h

theorem Denotes.coeff_toInts (ha : Denotes p a f) (i : ℕ) :
    0 ≤ (IntPoly.toPolynomial a.toInts).coeff i ∧
      (IntPoly.toPolynomial a.toInts).coeff i < p := by
  have hget : a.toInts.getD i 0 = (a.getD i 0 : ℕ) := List.getD_map _ _ Int.ofNat
  rw [IntPoly.coeff_toPolynomial, hget]
  exact ⟨Int.natCast_nonneg _, Int.ofNat_lt.2 (ha.coeff i).lt⟩

theorem Denotes.monic_toInts (ha : Denotes p a f) (hf : f.Monic) :
    (IntPoly.toPolynomial a.toInts).Monic := by
  have ha0 : a ≠ [] := mt ha.eq_nil_iff.1 hf.ne_zero
  have hlast := ha.getLast ha0
  rw [hf.leadingCoeff] at hlast
  rw [Monic, ha.trimmed_toInts.leadingCoeff_eq, IntPoly.lead, List.getLastD_eq_getLast?, toInts,
    List.getLast?_map, List.getLast?_eq_some_getLast ha0, hlast.unique Residue.denotes_one]
  rfl

theorem denotes_X : Denotes p X Polynomial.X :=
  (Denotes.cons Residue.denotes_zero (.cons Residue.denotes_one denotes_nil)).of_eq (by simp)

theorem denotes_one : Denotes p one 1 :=
  (Denotes.cons Residue.denotes_one denotes_nil).of_eq (by simp)

/-- A greatest common divisor is one when made monic, too. -/
theorem dvd_monic_gcd_iff {q : (ZMod p)[X]} :
    q ∣ EuclideanDomain.gcd g f * C (EuclideanDomain.gcd g f).leadingCoeff⁻¹ ↔ q ∣ f ∧ q ∣ g := by
  have hgcd : q ∣ EuclideanDomain.gcd g f ↔ q ∣ f ∧ q ∣ g :=
    ⟨fun h => ⟨h.trans (EuclideanDomain.gcd_dvd_right g f),
      h.trans (EuclideanDomain.gcd_dvd_left g f)⟩, fun h => EuclideanDomain.dvd_gcd h.2 h.1⟩
  rw [← hgcd]
  by_cases h0 : EuclideanDomain.gcd g f = 0
  · rw [h0, zero_mul]
  · have hunit : IsUnit (C (EuclideanDomain.gcd g f).leadingCoeff⁻¹) :=
      isUnit_C.2 (inv_ne_zero (leadingCoeff_ne_zero.2 h0)).isUnit
    exact hunit.dvd_mul_right

end

/-! ## Operations -/

/-- One more coefficient of the dividend. -/
theorem divRemBy_cons (p inv : ℕ) (b : ModPoly) (c : ℕ) (a : ModPoly) :
    divRemBy p inv b (c :: a) =
      let r := cons c (divRemBy p inv b a).2
      if r.length < b.length then (cons 0 (divRemBy p inv b a).1, r)
      else
        let x := Residue.mul p (r.getLastD 0) inv
        (cons x (divRemBy p inv b a).1, subScaled p x b r) := rfl

namespace Denotes

variable [Fact p.Prime] [Fact (p < primeLimit)]

theorem add (ha : Denotes p a f) (hb : Denotes p b g) : Denotes p (add p a b) (f + g) := by
  induction a generalizing b f g with
  | nil => exact hb.of_eq (by rw [ha.eq_zero, zero_add])
  | cons x a ih =>
    cases b with
    | nil => exact ha.of_eq (by rw [hb.eq_zero, add_zero])
    | cons y b =>
      obtain ⟨x', f, rfl, hx, ha⟩ := ha.uncons
      obtain ⟨y', g, rfl, hy, hb⟩ := hb.uncons
      rw [ModPoly.add]
      refine (cons (hx.add hy) (ih ha hb)).of_eq ?_
      rw [C_add]
      ring

theorem sub (ha : Denotes p a f) (hb : Denotes p b g) : Denotes p (sub p a b) (f - g) := by
  induction a generalizing b f g with
  | nil =>
    rw [ha.eq_zero]
    induction b generalizing g with
    | nil => exact denotes_nil.of_eq (by rw [hb.eq_zero, sub_zero])
    | cons y b ih =>
      obtain ⟨y', g, rfl, hy, hb⟩ := hb.uncons
      rw [ModPoly.sub]
      refine (cons (Residue.denotes_zero.sub hy) (ih hb)).of_eq ?_
      rw [C_sub, C_0]
      ring
  | cons x a ih =>
    cases b with
    | nil => exact ha.of_eq (by rw [hb.eq_zero, sub_zero])
    | cons y b =>
      obtain ⟨x', f, rfl, hx, ha⟩ := ha.uncons
      obtain ⟨y', g, rfl, hy, hb⟩ := hb.uncons
      rw [ModPoly.sub]
      refine (cons (hx.sub hy) (ih ha hb)).of_eq ?_
      rw [C_sub]
      ring

theorem scale {z : ZMod p} (hx : Residue.Denotes p x z) (ha : Denotes p a f) :
    Denotes p (scale p x a) (C z * f) := by
  induction a generalizing f with
  | nil => exact denotes_nil.of_eq (by rw [ha.eq_zero, mul_zero])
  | cons c a ih =>
    obtain ⟨c', f, rfl, hc, ha⟩ := ha.uncons
    refine (cons (hx.mul hc) (ih ha)).of_eq ?_
    rw [C_mul]
    ring

theorem addScaled {z : ZMod p} (hx : Residue.Denotes p x z) (hb : Denotes p b g)
    (hc : Denotes p a f) : Denotes p (addScaled p x b a) (f + C z * g) := by
  induction b generalizing a f g with
  | nil => exact hc.of_eq (by rw [hb.eq_zero, mul_zero, add_zero])
  | cons y b ih =>
    obtain ⟨y', g, rfl, hy, hb⟩ := hb.uncons
    cases a with
    | nil =>
      rw [ModPoly.addScaled, hc.eq_zero]
      refine (cons (hx.mul hy) (ih hb denotes_nil)).of_eq ?_
      rw [C_mul]
      ring
    | cons c a =>
      obtain ⟨c', f, rfl, hc, ha⟩ := hc.uncons
      rw [ModPoly.addScaled]
      refine (cons (hc.addMul hx hy) (ih hb ha)).of_eq ?_
      rw [C_add, C_mul]
      ring

theorem subScaled {z : ZMod p} (hx : Residue.Denotes p x z) (hb : Denotes p b g)
    (hc : Denotes p a f) (hle : b.length ≤ a.length) :
    Denotes p (subScaled p x b a) (f - C z * g) := by
  induction b generalizing a f g with
  | nil => exact hc.of_eq (by rw [hb.eq_zero, mul_zero, sub_zero])
  | cons y b ih =>
    obtain ⟨y', g, rfl, hy, hb⟩ := hb.uncons
    cases a with
    | nil => cases hle
    | cons c a =>
      obtain ⟨c', f, rfl, hc, ha⟩ := hc.uncons
      rw [ModPoly.subScaled]
      refine (cons (hc.subMul hx hy) (ih hb ha (Nat.le_of_succ_le_succ hle))).of_eq ?_
      rw [C_sub, C_mul]
      ring

theorem mul (ha : Denotes p a f) (hb : Denotes p b g) : Denotes p (mul p a b) (f * g) := by
  induction a generalizing f with
  | nil => exact denotes_nil.of_eq (by rw [ha.eq_zero, zero_mul])
  | cons x a ih =>
    obtain ⟨x', f, rfl, hx, ha⟩ := ha.uncons
    refine (addScaled hx hb (cons Residue.denotes_zero (ih ha))).of_eq ?_
    rw [C_0]
    ring

/-! ## Division -/

/-- What has been read of the dividend is the quotient times the divisor plus the
remainder. -/
theorem divRemBy (hb : Denotes p b g) (hb0 : b ≠ []) {inv : ℕ}
    (hinv : Residue.Denotes p inv g.leadingCoeff⁻¹) (ha : Denotes p a f) :
    ∃ q r, Denotes p (divRemBy p inv b a).1 q ∧ Denotes p (divRemBy p inv b a).2 r ∧
      f = q * g + r ∧ (divRemBy p inv b a).2.length < b.length := by
  have hpos := List.length_pos_of_ne_nil hb0
  induction a generalizing f with
  | nil => exact ⟨0, 0, denotes_nil, denotes_nil, by rw [ha.eq_zero]; ring, hpos⟩
  | cons c a ih =>
    obtain ⟨c', f, rfl, hc, ha⟩ := ha.uncons
    obtain ⟨q, r, hq, hr, rfl, hlt⟩ := ih ha
    have hr' := cons hc hr
    have hle := length_cons_le c (ModPoly.divRemBy p inv b a).2
    rw [divRemBy_cons]
    dsimp only
    split
    · next hshort =>
      refine ⟨_, _, cons Residue.denotes_zero hq, hr', ?_, hshort⟩
      rw [C_0]
      ring
    · next hlong =>
      have hlength : (ModPoly.cons c (ModPoly.divRemBy p inv b a).2).length = b.length := by omega
      have hx := hr'.leadingCoeff.mul hinv
      have hsub := subScaled hx hb hr' hlength.ge
      have hshort := hsub.length_le_iff.2 (degree_sub_leading_lt hr' hb hb0 hlength)
      refine ⟨_, _, cons hx hq, hsub, ?_, hshort.trans_lt (Nat.sub_lt hpos Nat.one_pos)⟩
      ring

/-- The quotient and the remainder of the division of polynomials. -/
theorem divRem (ha : Denotes p a f) (hb : Denotes p b g) :
    Denotes p (divRem p a b).1 (f / g) ∧ Denotes p (divRem p a b).2 (f % g) := by
  by_cases hb0 : b = []
  · rw [hb0, hb.eq_nil_iff.1 hb0, EuclideanDomain.div_zero, EuclideanDomain.mod_zero]
    exact ⟨denotes_nil, ha⟩
  · have hg : g ≠ 0 := mt hb.eq_nil_iff.2 hb0
    have hinv := (hb.getLast hb0).inverse (leadingCoeff_ne_zero.2 hg)
    obtain ⟨q, r, hq, hr, hf, hlt⟩ := hb.divRemBy hb0 hinv ha
    have hmod : f % g = r := by
      rw [hf, add_mod, EuclideanDomain.mod_eq_zero.2 (dvd_mul_left g q), zero_add,
        (mod_eq_self_iff hg).2 ((hr.degree_lt_iff hb hb0).1 hlt)]
    have hmul : g * (f / g) = g * q := by
      have hsplit := EuclideanDomain.div_add_mod f g
      rw [hmod] at hsplit
      linear_combination hsplit + hf
    have hdiv : f / g = q := mul_left_cancel₀ hg hmul
    rw [ModPoly.divRem, List.getLast?_eq_some_getLast hb0, hdiv, hmod]
    exact ⟨hq, hr⟩

theorem div (ha : Denotes p a f) (hb : Denotes p b g) : Denotes p (div p a b) (f / g) :=
  (ha.divRem hb).1

theorem rem (ha : Denotes p a f) (hb : Denotes p b g) : Denotes p (rem p a b) (f % g) :=
  (ha.divRem hb).2

theorem length_rem_lt (ha : Denotes p a f) (hb : Denotes p b g) (hb0 : b ≠ []) :
    (ModPoly.rem p a b).length < b.length := by
  rw [(ha.rem hb).degree_lt_iff hb hb0]
  exact EuclideanDomain.mod_lt f (mt hb.eq_nil_iff.2 hb0)

/-- The multiple with the leading coefficient one. -/
theorem monic (ha : Denotes p a f) : Denotes p (monic p a) (f * C f.leadingCoeff⁻¹) := by
  by_cases ha0 : a = []
  · rw [ha0, ha.eq_nil_iff.1 ha0, zero_mul]
    exact denotes_nil
  · have hinv := (ha.getLast ha0).inverse (leadingCoeff_ne_zero.2 (mt ha.eq_nil_iff.2 ha0))
    rw [ModPoly.monic, List.getLast?_eq_some_getLast ha0, mul_comm]
    exact scale hinv ha

/-! ## Powers and derivatives -/

theorem mulMod {m : ModPoly} {h : (ZMod p)[X]} (hm : Denotes p m h) (ha : Denotes p a f)
    (hb : Denotes p b g) : Denotes p (mulMod p m a b) (f * g % h) := (ha.mul hb).rem hm

theorem powMod {m : ModPoly} {h : (ZMod p)[X]} (hm : Denotes p m h) (ha : Denotes p a f) (n : ℕ) :
    Denotes p (powMod p a n m) (f ^ n % h) := by
  refine powerBy_of_add (R := fun n b => Denotes p b (f ^ n % h)) ?_ ?_ ?_ n
  · rw [pow_zero]
    exact denotes_one.rem hm
  · rw [pow_one]
    exact ha.rem hm
  · intro i j b c hb hc
    rw [pow_add, mul_mod]
    exact hm.mulMod hb hc

theorem derivativeFrom (ha : Denotes p a f) (i : ℕ) :
    Denotes p (derivativeFrom p i a)
      (C (i : ZMod p) * f + Polynomial.X * Polynomial.derivative f) := by
  induction a generalizing f i with
  | nil =>
    refine denotes_nil.of_eq ?_
    rw [ha.eq_zero, derivative_zero, mul_zero, mul_zero, add_zero]
  | cons c a ih =>
    obtain ⟨c', f, rfl, hc, ha⟩ := ha.uncons
    refine (cons ((Residue.denotes_mod i).mul hc) (ih ha (i + 1))).of_eq ?_
    rw [derivative_add, derivative_C, derivative_mul, derivative_X, Nat.cast_add, Nat.cast_one,
      C_add, C_1, C_mul]
    ring

theorem derivative (ha : Denotes p a f) : Denotes p (derivative p a) (Polynomial.derivative f) := by
  cases a with
  | nil => exact denotes_nil.of_eq (by rw [ha.eq_zero, derivative_zero])
  | cons c a =>
    obtain ⟨c', f, rfl, hc, ha⟩ := ha.uncons
    refine (ha.derivativeFrom 1).of_eq ?_
    rw [derivative_add, derivative_C, derivative_mul, derivative_X, Nat.cast_one, C_1]
    ring

/-! ## Common divisors -/

/-- With enough steps, the divisions end at the greatest common divisor. -/
theorem gcdSteps {steps : ℕ} (ha : Denotes p a f) (hb : Denotes p b g) (h : b.length < steps) :
    Denotes p (gcdSteps p steps a b) (EuclideanDomain.gcd g f) := by
  induction steps generalizing a b f g with
  | zero => cases h
  | succ steps ih =>
    rw [ModPoly.gcdSteps]
    split
    · next hempty =>
      rw [hb.eq_nil_iff.1 (List.isEmpty_iff.1 hempty), EuclideanDomain.gcd_zero_left]
      exact ha
    · next hempty =>
      have hb0 : b ≠ [] := fun h0 => hempty (List.isEmpty_iff.2 h0)
      have hlt := ha.length_rem_lt hb hb0
      rw [EuclideanDomain.gcd_val]
      exact ih hb (ha.rem hb) (by omega)

/-- The greatest common divisor, made monic. -/
theorem gcd (ha : Denotes p a f) (hb : Denotes p b g) :
    Denotes p (gcd p a b) (EuclideanDomain.gcd g f * C (EuclideanDomain.gcd g f).leadingCoeff⁻¹) :=
  (ha.gcdSteps hb (Nat.lt_succ_self _)).monic

/-- Polynomials with a constant greatest common divisor are coprime. -/
theorem isCoprime_of_length_gcd (ha : Denotes p a f) (hb : Denotes p b g) (hf : f ≠ 0)
    (h : (ModPoly.gcd p a b).length ≤ 1) : IsCoprime f g := by
  have hgcd0 : EuclideanDomain.gcd g f ≠ 0 := fun h0 => hf (EuclideanDomain.gcd_eq_zero_iff.1 h0).2
  have hdegree := (ha.gcd hb).length_le_iff.1 h
  rw [degree_mul_leadingCoeff_inv _ hgcd0, degree_eq_natDegree hgcd0, Nat.cast_lt] at hdegree
  have hunit : IsUnit (EuclideanDomain.gcd g f) := by
    rw [isUnit_iff_degree_eq_zero, degree_eq_natDegree hgcd0, Nat.lt_one_iff.1 hdegree,
      Nat.cast_zero]
  exact (EuclideanDomain.gcd_isUnit_iff.1 hunit).symm

end Denotes

/-! ## Combinations of coprime polynomials -/

/-- The value of a combination of `f` and `g` is `r`. -/
def Combination.Denotes (p : ℕ) (f g r : (ZMod p)[X]) (c : Combination) : Prop :=
  ∃ s t, ModPoly.Denotes p c.value r ∧ ModPoly.Denotes p c.left s ∧
    ModPoly.Denotes p c.right t ∧ s * f + t * g = r

/-- One division of the values, with the factors. -/
theorem Combination.Denotes.next [Fact p.Prime] [Fact (p < primeLimit)] {r r' : (ZMod p)[X]}
    {c c' : Combination} (hc : c.Denotes p f g r) (hc' : c'.Denotes p f g r') :
    Combination.Denotes p f g (r % r')
      ⟨(divRem p c.value c'.value).2,
        sub p c.left (mul p (divRem p c.value c'.value).1 c'.left),
        sub p c.right (mul p (divRem p c.value c'.value).1 c'.right)⟩ := by
  obtain ⟨s, t, hvalue, hleft, hright, heq⟩ := hc
  obtain ⟨s', t', hvalue', hleft', hright', heq'⟩ := hc'
  obtain ⟨hq, hr⟩ := hvalue.divRem hvalue'
  refine ⟨_, _, hr, hleft.sub (hq.mul hleft'), hright.sub (hq.mul hright'), ?_⟩
  have hdivide := EuclideanDomain.div_add_mod r r'
  linear_combination heq - r / r' * heq' - hdivide

/-- The combinations that Euclid's algorithm starts with. -/
theorem Combination.denotes_left [Fact p.Prime] (ha : ModPoly.Denotes p a f) :
    Combination.Denotes p f g f ⟨a, one, []⟩ := ⟨1, 0, ha, denotes_one, denotes_nil, by ring⟩

theorem Combination.denotes_right [Fact p.Prime] (hb : ModPoly.Denotes p b g) :
    Combination.Denotes p f g g ⟨b, [], one⟩ := ⟨0, 1, hb, denotes_nil, denotes_one, by ring⟩

namespace Denotes

variable [Fact p.Prime] [Fact (p < primeLimit)]

/-- The combinations follow the divisions to the greatest common divisor. -/
theorem bezoutSteps {steps : ℕ} {r r' : (ZMod p)[X]} {c c' : Combination}
    (hc : c.Denotes p f g r) (hc' : c'.Denotes p f g r') (h : c'.value.length < steps) :
    (bezoutSteps p steps c c').Denotes p f g (EuclideanDomain.gcd r' r) := by
  induction steps generalizing c c' r r' with
  | zero => cases h
  | succ steps ih =>
    obtain ⟨-, -, hvalue, -⟩ := id hc
    obtain ⟨-, -, hvalue', -⟩ := id hc'
    rw [ModPoly.bezoutSteps]
    split
    · next hempty =>
      rw [hvalue'.eq_nil_iff.1 (List.isEmpty_iff.1 hempty), EuclideanDomain.gcd_zero_left]
      exact hc
    · next hempty =>
      have hlt := hvalue.length_rem_lt hvalue' fun h0 => hempty (List.isEmpty_iff.2 h0)
      rw [EuclideanDomain.gcd_val]
      exact ih hc' (hc.next hc') (hlt.trans_le (Nat.le_of_lt_succ h))

/-- Coprime polynomials have a combination that is one. -/
theorem bezout (ha : Denotes p a f) (hb : Denotes p b g) (hcoprime : IsCoprime f g) :
    ∃ s t, Denotes p (bezout p a b).1 s ∧ Denotes p (bezout p a b).2 t ∧ s * f + t * g = 1 := by
  obtain ⟨s, t, hvalue, hs, ht, heq⟩ := bezoutSteps (Combination.denotes_left ha)
    (Combination.denotes_right hb) (Nat.lt_succ_self _)
  obtain ⟨u, hu, hconstant⟩ := isUnit_iff.1 (EuclideanDomain.gcd_isUnit_iff.2 hcoprime.symm)
  rw [← hconstant] at hvalue heq
  set value := (ModPoly.bezoutSteps p (b.length + 1) ⟨a, ModPoly.one, []⟩
    ⟨b, [], ModPoly.one⟩).value with hdef
  have hhead : Residue.Denotes p (value.headD 1) u := by
    have hcoeff := hvalue.coeff 0
    rw [coeff_C_zero] at hcoeff
    cases hcase : value with
    | nil =>
      rw [hcase, List.getD_nil] at hcoeff
      exact absurd (hcoeff.eq_zero_iff.1 rfl) hu.ne_zero
    | cons c cs => simpa [hcase] using hcoeff
  have hinv := hhead.inverse hu.ne_zero
  refine ⟨_, _, scale hinv hs, scale hinv ht, ?_⟩
  calc C u⁻¹ * s * f + C u⁻¹ * t * g = C u⁻¹ * C u := by rw [← heq]; ring
    _ = 1 := by rw [← C_mul, inv_mul_cancel₀ hu.ne_zero, C_1]

end Denotes

end ModPoly
end Meadow
