import Mathlib
import Meadow.Poly.Basic

set_option autoImplicit false

/-!
# The ring of polynomials

`Poly.toMv` reads a polynomial as a multivariate polynomial over the rationals.
It is a bijection that carries every operation over, so polynomials form a
commutative ring, a domain with unique factorization.  From here on divisibility
is stated of the polynomials themselves.
-/

namespace Meadow

/-- No key is listed twice. -/
theorem FinSupp.nodup_keys {K V : Type} {cmp : K → K → Ordering} {zero : V} [Std.TransCmp cmp]
    (f : FinSupp K V cmp zero) : f.keys.Nodup := by
  rw [FinSupp.keys, List.Nodup, List.pairwise_map]
  refine f.sorted.imp ?_
  intro a b hab heq
  simp [heq, Std.ReflCmp.compare_self] at hab

/-! ## Monomials -/

namespace Monomial

/-- The exponents as a finitely supported function of the names. -/
noncomputable def toFinsupp (m : Monomial) : String →₀ ℕ :=
  Finsupp.onFinset m.vars.toFinset m.exponent fun v hv => by
    rw [List.mem_toFinset, mem_vars_iff]
    exact Nat.pos_of_ne_zero hv

@[simp] theorem toFinsupp_apply (m : Monomial) (v : String) : m.toFinsupp v = m.exponent v := rfl

theorem toFinsupp_injective : Function.Injective toFinsupp := fun _ _ h =>
  ext_exponent fun v => DFunLike.congr_fun h v

@[simp] theorem toFinsupp_inj {m n : Monomial} : m.toFinsupp = n.toFinsupp ↔ m = n :=
  toFinsupp_injective.eq_iff

@[simp] theorem toFinsupp_one : one.toFinsupp = 0 := by
  ext v
  simp

@[simp] theorem toFinsupp_mul (m n : Monomial) :
    (m.mul n).toFinsupp = m.toFinsupp + n.toFinsupp := by
  ext v
  simp

@[simp] theorem toFinsupp_power (v : String) (e : ℕ) :
    (power v e).toFinsupp = Finsupp.single v e := by
  ext w
  simp [Finsupp.single_apply]

theorem toFinsupp_surjective : Function.Surjective toFinsupp := by
  intro f
  induction f using Finsupp.induction with
  | zero => exact ⟨one, toFinsupp_one⟩
  | single_add v e f _ _ ih =>
    obtain ⟨m, rfl⟩ := ih
    exact ⟨(power v e).mul m, by rw [toFinsupp_mul, toFinsupp_power]⟩

/-- A product over the powers, as one over the exponents. -/
theorem prod_powers {M : Type*} [CommMonoid M] (f : String → ℕ → M) (hf : ∀ v, f v 0 = 1)
    (m : Monomial) : (m.powers.map fun w => f w.1 w.2).prod = m.toFinsupp.prod f := by
  have hprod : m.toFinsupp.prod f = ∏ w ∈ m.vars.toFinset, f w (m.exponent w) :=
    Finsupp.prod_of_support_subset _ Finsupp.support_onFinset_subset _ fun v _ => hf v
  have hnodup : m.vars.Nodup := m.exponents.nodup_keys
  rw [hprod, List.prod_toFinset _ hnodup, vars, FinSupp.keys, List.map_map]
  refine congrArg List.prod (List.map_congr_left fun w hw => ?_)
  have hexp : m.exponent w.1 = w.2 := (FinSupp.mem_entries_iff.1 hw).1
  simp [hexp]

end Monomial

/-! ## Polynomials -/

/-- A sum over changed entries is the sum of the changed terms: a dropped entry
would add nothing. -/
theorem Entries.sum_mapVals {K V M : Type} [DecidableEq V] [AddCommMonoid M] {zero : V}
    (f : K → V → V) (F : K → V → M) (hF : ∀ k, F k zero = 0) (es : List (K × V)) :
    ((mapVals zero f es).map fun e => F e.1 e.2).sum
      = (es.map fun e => F e.1 (f e.1 e.2)).sum := by
  induction es with
  | nil => rfl
  | cons e es ih =>
    have step : mapVals zero f (e :: es)
        = consNonzero zero e.1 (f e.1 e.2) (mapVals zero f es) := rfl
    rw [step, consNonzero, List.map_cons, List.sum_cons, ← ih]
    split
    · next h => rw [h, hF, zero_add]
    · rw [List.map_cons, List.sum_cons]

namespace Poly

open MvPolynomial (monomial_zero)

/-- The multivariate polynomial with the same coefficients. -/
noncomputable def toMv (p : Poly) : MvPolynomial String ℚ :=
  (p.terms.map fun t => MvPolynomial.monomial t.1.toFinsupp t.2).sum

theorem coeff_sum_entries {es : List (Monomial × ℚ)}
    (hs : Entries.Sorted (descending Monomial.lexCmp) es) (m : Monomial) :
    MvPolynomial.coeff m.toFinsupp
        (es.map fun t => MvPolynomial.monomial t.1.toFinsupp t.2).sum
      = Entries.get 0 m es := by
  induction es with
  | nil => simp [Entries.get]
  | cons e es ih =>
    obtain ⟨he, hs⟩ := List.pairwise_cons.1 hs
    rw [List.map_cons, List.sum_cons, MvPolynomial.coeff_add, MvPolynomial.coeff_monomial,
      ih hs, Entries.get]
    by_cases h : e.1 = m
    · subst h
      rw [Entries.get_below he]
      simp
    · simp [h]

@[simp] theorem coeff_toMv (p : Poly) (m : Monomial) :
    MvPolynomial.coeff m.toFinsupp p.toMv = p.coeff m :=
  coeff_sum_entries p.coeffs.sorted m

theorem toMv_injective : Function.Injective toMv := fun p q h =>
  ext_coeff fun m => by rw [← coeff_toMv, h, coeff_toMv]

@[simp] theorem toMv_inj {p q : Poly} : p.toMv = q.toMv ↔ p = q := toMv_injective.eq_iff

/-- Multivariate polynomials that agree at the exponents of all monomials are equal. -/
theorem mv_ext {f g : MvPolynomial String ℚ}
    (h : ∀ m : Monomial, MvPolynomial.coeff m.toFinsupp f = MvPolynomial.coeff m.toFinsupp g) :
    f = g := by
  ext e
  obtain ⟨m, rfl⟩ := Monomial.toFinsupp_surjective e
  exact h m

@[simp] theorem toMv_zero : zero.toMv = 0 := rfl

@[simp] theorem toMv_add (p q : Poly) : (p.add q).toMv = p.toMv + q.toMv :=
  mv_ext fun m => by simp

@[simp] theorem toMv_scale (c : ℚ) (p : Poly) :
    (p.scale c).toMv = MvPolynomial.C c * p.toMv :=
  mv_ext fun m => by simp

@[simp] theorem toMv_neg (p : Poly) : p.neg.toMv = -p.toMv :=
  mv_ext fun m => by simp

@[simp] theorem toMv_sub (p q : Poly) : (p.sub q).toMv = p.toMv - q.toMv :=
  mv_ext fun m => by simp

@[simp] theorem toMv_monomial (m : Monomial) (c : ℚ) :
    (monomial m c).toMv = MvPolynomial.monomial m.toFinsupp c :=
  mv_ext fun n => by simp [MvPolynomial.coeff_monomial]

@[simp] theorem toMv_constant (c : ℚ) : (constant c).toMv = MvPolynomial.C c := by
  rw [constant, toMv_monomial, Monomial.toFinsupp_one, MvPolynomial.C_apply]

@[simp] theorem toMv_one : one.toMv = 1 := by
  rw [one, toMv_constant, MvPolynomial.C_1]

@[simp] theorem toMv_var (v : String) : (var v).toMv = MvPolynomial.X v := by
  rw [var, toMv_monomial, Monomial.toFinsupp_power]
  rfl

@[simp] theorem toMv_mulTerm (p : Poly) (m : Monomial) (c : ℚ) :
    (p.mulTerm m c).toMv = MvPolynomial.monomial m.toFinsupp c * p.toMv := by
  have dropped := Entries.sum_mapVals (fun _ a => c * a)
    (fun (k : Monomial) (a : ℚ) => MvPolynomial.monomial k.toFinsupp a)
    (fun _ => monomial_zero) (p.terms.map fun t => (t.1.mul m, t.2))
  rw [toMv, toMv, ← List.sum_map_mul_left]
  refine dropped.trans (congrArg List.sum ?_)
  rw [List.map_map]
  apply List.map_congr_left
  intro t _
  simp [MvPolynomial.monomial_mul, add_comm]

@[simp] theorem toMv_mul (p q : Poly) : (p.mul q).toMv = p.toMv * q.toMv := by
  have main (ts : List (Monomial × ℚ)) :
      (ts.foldr (fun t acc => (q.mulTerm t.1 t.2).add acc) zero).toMv
        = (ts.map fun t => MvPolynomial.monomial t.1.toFinsupp t.2).sum * q.toMv := by
    induction ts with
    | nil => simp
    | cons t ts ih => simp [ih, add_mul]
  exact main p.terms

@[simp] theorem toMv_pow (p : Poly) (n : ℕ) : (p.pow n).toMv = p.toMv ^ n := by
  induction n with
  | zero => simp [pow]
  | succ n ih => rw [pow, toMv_mul, ih, pow_succ]

theorem toMv_ofTerms (ts : List (Monomial × ℚ)) :
    (ofTerms ts).toMv = (ts.map fun t => MvPolynomial.monomial t.1.toFinsupp t.2).sum := by
  induction ts with
  | nil => rfl
  | cons t ts ih =>
    have step : ofTerms (t :: ts) = (monomial t.1 t.2).add (ofTerms ts) := rfl
    rw [step, toMv_add, toMv_monomial, ih, List.map_cons, List.sum_cons]

theorem toMv_surjective : Function.Surjective toMv := by
  intro f
  induction f using MvPolynomial.induction_on with
  | C c => exact ⟨constant c, toMv_constant c⟩
  | add f g hf hg =>
    obtain ⟨p, rfl⟩ := hf
    obtain ⟨q, rfl⟩ := hg
    exact ⟨p.add q, toMv_add p q⟩
  | mul_X f v hf =>
    obtain ⟨p, rfl⟩ := hf
    exact ⟨p.mul (var v), by rw [toMv_mul, toMv_var]⟩

/-! ## The ring -/

instance : Zero Poly := ⟨zero⟩
instance : One Poly := ⟨one⟩
instance : Add Poly := ⟨add⟩
instance : Mul Poly := ⟨mul⟩
instance : Neg Poly := ⟨neg⟩
instance : Sub Poly := ⟨sub⟩
instance : Pow Poly ℕ := ⟨pow⟩
instance : SMul ℕ Poly := ⟨fun n p => p.scale n⟩
instance : SMul ℤ Poly := ⟨fun n p => p.scale n⟩
instance : NatCast Poly := ⟨fun n => constant n⟩
instance : IntCast Poly := ⟨fun n => constant n⟩

theorem zero_def : zero = 0 := rfl
theorem one_def : one = 1 := rfl
theorem add_def (p q : Poly) : p.add q = p + q := rfl
theorem mul_def (p q : Poly) : p.mul q = p * q := rfl
theorem neg_def (p : Poly) : p.neg = -p := rfl
theorem sub_def (p q : Poly) : p.sub q = p - q := rfl
theorem pow_def (p : Poly) (n : ℕ) : p.pow n = p ^ n := rfl

noncomputable instance : CommRing Poly :=
  toMv_injective.commRing toMv rfl toMv_one toMv_add toMv_mul toMv_neg toMv_sub
    (fun n p => by
      refine (toMv_scale n p).trans ?_
      rw [map_natCast, nsmul_eq_mul])
    (fun n p => by
      refine (toMv_scale n p).trans ?_
      rw [map_intCast, zsmul_eq_mul])
    toMv_pow
    (fun n => (toMv_constant n).trans (map_natCast _ n))
    (fun n => (toMv_constant n).trans (map_intCast _ n))

/-- Reading as a multivariate polynomial, as a homomorphism. -/
noncomputable def toMvHom : Poly →+* MvPolynomial String ℚ where
  toFun := toMv
  map_zero' := rfl
  map_one' := toMv_one
  map_add' := toMv_add
  map_mul' := toMv_mul

/-- Polynomials are the multivariate polynomials over the rationals. -/
noncomputable def toMvEquiv : Poly ≃+* MvPolynomial String ℚ :=
  RingEquiv.ofBijective toMvHom ⟨toMv_injective, toMv_surjective⟩

instance : IsDomain Poly := toMv_injective.isDomain toMvHom

instance : UniqueFactorizationMonoid Poly :=
  toMvEquiv.symm.toMulEquiv.uniqueFactorizationMonoid inferInstance

end Poly
end Meadow
