import Mathlib
import Meadow.Proofs.Poly.Kronecker

set_option autoImplicit false

/-!
# Polynomials as they are built

A construction records which operations made a polynomial, and its meaning carries out
the same operations on multivariate polynomials over the rationals.  What is built denotes
the meaning, step by step, and one fails exactly when the other does.  The terms are
stored in normal form, so polynomials are compared by comparing their terms.
-/

namespace Meadow

namespace Monomial

/-! ## Monomials -/

/-- How a monomial is built. -/
inductive Construction where
  | one
  | power (x : String) (e : ℕ)
  | mul (s t : Construction)
  | gcd (s t : Construction)
  | without (s : Construction) (x : String)
  | divide (s t : Construction)

/-- Carry out the operations. -/
def Construction.build : Construction → Option Monomial
  | one => some .one
  | power x e => some (.power x e)
  | mul s t => Option.map₂ Monomial.mul s.build t.build
  | gcd s t => Option.map₂ Monomial.gcd s.build t.build
  | without s x => s.build.map fun m => m.without x
  | divide s t => s.build.bind fun m => t.build.bind fun n => m.divide? n

open Classical in
/-- The same operations on exponents. -/
noncomputable def Construction.meaning : Construction → Option (String →₀ ℕ)
  | one => some 0
  | power x e => some (Finsupp.single x e)
  | mul s t => Option.map₂ (· + ·) s.meaning t.meaning
  | gcd s t => Option.map₂ (· ⊓ ·) s.meaning t.meaning
  | without s x => s.meaning.map fun e => e.erase x
  | divide s t => s.meaning.bind fun e => t.meaning.bind fun f =>
      if f ≤ e then some (e - f) else none

@[simp] theorem toFinsupp_gcd (m n : Monomial) :
    (m.gcd n).toFinsupp = m.toFinsupp ⊓ n.toFinsupp := by
  ext x
  simp

@[simp] theorem toFinsupp_without (m : Monomial) (x : String) :
    (m.without x).toFinsupp = m.toFinsupp.erase x := by
  ext y
  simp [Finsupp.erase_apply]

open Classical in
theorem toFinsupp_divide? (m n : Monomial) :
    (m.divide? n).map toFinsupp
      = if n.toFinsupp ≤ m.toFinsupp then some (m.toFinsupp - n.toFinsupp) else none := by
  cases h : m.divide? n with
  | some q =>
    obtain rfl := divide?_eq_some_iff.1 h
    simp
  | none =>
    rw [if_neg, Option.map_none]
    intro hle
    have hd : n.divides m = true := divides_iff.2 hle
    rw [divide?, if_pos hd] at h
    cases h

/-- What is built has the exponents that the construction stands for. -/
theorem Construction.map_build (s : Construction) :
    s.build.map Monomial.toFinsupp = s.meaning := by
  induction s with
  | one => simp [build, meaning]
  | power x e => simp [build, meaning]
  | mul s t hs ht =>
    rw [build, meaning, ← hs, ← ht, Option.map_map₂_distrib]
    exact toFinsupp_mul
  | gcd s t hs ht =>
    rw [build, meaning, ← hs, ← ht, Option.map_map₂_distrib]
    exact toFinsupp_gcd
  | without s x hs =>
    rw [build, meaning, ← hs, Option.map_map, Option.map_map]
    exact congrArg (s.build.map ·) (funext fun m => toFinsupp_without m x)
  | divide s t hs ht =>
    rw [build, meaning, ← hs, ← ht]
    cases s.build with
    | none => rfl
    | some m =>
      cases t.build with
      | none => rfl
      | some n => exact toFinsupp_divide? m n

end Monomial

namespace Poly

open MvPolynomial (C X pderiv)

/-! ## What the operations denote -/

theorem toMv_addTerm (p : Poly) (m : Monomial) (c : ℚ) :
    (p.addTerm m c).toMv = p.toMv + MvPolynomial.monomial m.toFinsupp c := by
  rw [addTerm, toMv_add, toMv_monomial, add_comm]

/-- The partial derivative of a term is a term, or nothing if the variable is not in it. -/
theorem pderiv_term (x : String) (m : Monomial) (c : ℚ) :
    pderiv x (MvPolynomial.monomial m.toFinsupp c)
      = MvPolynomial.monomial ((m.without x).mul (.power x (m.exponent x - 1))).toFinsupp
          (c * m.exponent x) := by
  have hlowered : m.toFinsupp - Finsupp.single x 1
      = ((m.without x).mul (.power x (m.exponent x - 1))).toFinsupp := by
    ext y
    by_cases h : x = y
    · simp [h]
    · simp [Ne.symm h]
  rw [MvPolynomial.pderiv_monomial, hlowered, Monomial.toFinsupp_apply]

@[simp] theorem toMv_derivative (p : Poly) (x : String) :
    (p.derivative x).toMv = pderiv x p.toMv := by
  have main (ts : List (Monomial × ℚ)) :
      (ofTerms ((ts.filter fun t => t.1.exponent x != 0).map fun t =>
          ((t.1.without x).mul (.power x (t.1.exponent x - 1)),
            t.2 * (t.1.exponent x : ℚ)))).toMv
        = pderiv x (ts.map fun t => MvPolynomial.monomial t.1.toFinsupp t.2).sum := by
    induction ts with
    | nil => simp [ofTerms]
    | cons t ts ih =>
      rw [List.map_cons, List.sum_cons, map_add, ← ih, pderiv_term]
      by_cases h : t.1.exponent x = 0
      · rw [List.filter_cons_of_neg (by simpa using h), h]
        simp
      · rw [List.filter_cons_of_pos (by simpa using h), List.map_cons, ofTerms_cons,
          toMv_addTerm, add_comm]
  exact main p.terms

/-- Zero for one variable, every other variable for itself. -/
noncomputable def zeroFor (x : String) : MvPolynomial String ℚ →ₐ[ℚ] MvPolynomial String ℚ :=
  MvPolynomial.aeval fun y => if y = x then 0 else X y

theorem zeroFor_term (x : String) (m : Monomial) (c : ℚ) :
    zeroFor x (MvPolynomial.monomial m.toFinsupp c)
      = if m.exponent x = 0 then MvPolynomial.monomial m.toFinsupp c else 0 := by
  rw [zeroFor, MvPolynomial.aeval_monomial]
  split
  · next h =>
    rw [MvPolynomial.monomial_eq, MvPolynomial.algebraMap_eq]
    congr 1
    refine Finsupp.prod_congr fun y hy => ?_
    rw [if_neg]
    rintro rfl
    exact Finsupp.mem_support_iff.1 hy h
  · next h =>
    have hx : x ∈ m.toFinsupp.support := Finsupp.mem_support_iff.2 h
    rw [Finsupp.prod, Finset.prod_eq_zero hx, mul_zero]
    rw [if_pos rfl]
    exact zero_pow h

@[simp] theorem toMv_substituteZero (p : Poly) (x : String) :
    (p.substituteZero x).toMv = zeroFor x p.toMv := by
  have main (ts : List (Monomial × ℚ)) :
      ((ts.filter fun t => t.1.exponent x == 0).map fun t =>
          MvPolynomial.monomial t.1.toFinsupp t.2).sum
        = zeroFor x (ts.map fun t => MvPolynomial.monomial t.1.toFinsupp t.2).sum := by
    induction ts with
    | nil => simp
    | cons t ts ih =>
      rw [List.map_cons, List.sum_cons, map_add, ← ih, zeroFor_term]
      by_cases h : t.1.exponent x = 0
      · rw [List.filter_cons_of_pos (by simpa using h), List.map_cons, List.sum_cons, if_pos h]
      · rw [List.filter_cons_of_neg (by simpa using h), if_neg h, zero_add]
  exact main p.terms

/-- A monomial that divides a polynomial divides all its terms. -/
theorem divides_of_monomial_dvd {p : Poly} {m : Monomial}
    (h : MvPolynomial.monomial m.toFinsupp 1 ∣ p.toMv) {t : Monomial × ℚ} (ht : t ∈ p.terms) :
    m.divides t.1 = true := by
  refine Monomial.divides_iff.2 fun x => ?_
  by_contra hx
  have hle : ¬ m.toFinsupp ≤ t.1.toFinsupp := fun hle => hx (hle x)
  have hcoeff := MvPolynomial.coeff_modMonomial_of_not_le p.toMv hle
  rw [MvPolynomial.monomial_one_dvd_iff_modMonomial_eq_zero.1 h, coeff_toMv] at hcoeff
  exact coeff_ne_zero_of_mem ht hcoeff.symm

open Classical in
/-- The division by a monomial is the exact one, and it fails when there is none. -/
theorem toMv_divMonomial? (p : Poly) (m : Monomial) :
    (p.divMonomial? m).map toMv
      = if MvPolynomial.monomial m.toFinsupp 1 ∣ p.toMv then
          some (p.toMv.divMonomial m.toFinsupp) else none := by
  split
  · next h =>
    obtain ⟨r, hr, hp⟩ := exists_divMonomial? fun _ => divides_of_monomial_dvd h
    have hmv : p.toMv = MvPolynomial.monomial m.toFinsupp 1 * r.toMv := by
      rw [hp, ← mul_def, toMv_mul, toMv_monomial]
    rw [hr, hmv, MvPolynomial.divMonomial_monomial_mul, Option.map_some]
  · next h =>
    cases hq : p.divMonomial? m with
    | none => rfl
    | some r =>
      refine absurd ?_ h
      obtain ⟨us, hus, rfl⟩ := Option.map_eq_some_iff.1 hq
      have hp : monomial m 1 * ofTerms us = p := by
        rw [monomial_mul_ofTerms hus, ofTerms_eq_sum, sum_terms]
      rw [← hp, ← mul_def, toMv_mul, toMv_monomial]
      exact Dvd.intro _ rfl

/-- A polynomial read as one in a single variable. -/
noncomputable def univariate (x : String) :
    MvPolynomial String ℚ →+* Polynomial (MvPolynomial String ℚ) :=
  MvPolynomial.eval₂Hom (Polynomial.C.comp C) fun y =>
    if y = x then Polynomial.X else Polynomial.C (X y)

theorem map_inVar (x : String) (p : Poly) :
    (inVar x p).map toMvHom = univariate x p.toMv := by
  have hconstant : (Polynomial.mapRingHom toMvHom).comp (Polynomial.C.comp constantHom)
      = Polynomial.C.comp C := Subsingleton.elim _ _
  have hvar (y : String) :
      Polynomial.mapRingHom toMvHom (if y = x then Polynomial.X else Polynomial.C (var y))
        = if y = x then Polynomial.X else Polynomial.C (X y) := by
    split
    · exact Polynomial.map_X toMvHom
    · exact (Polynomial.map_C toMvHom).trans (congrArg Polynomial.C (toMv_var y))
  change Polynomial.mapRingHom toMvHom (MvPolynomial.eval₂Hom _ _ p.toMv) = _
  rw [MvPolynomial.map_eval₂Hom, hconstant, univariate]
  simp only [hvar]

@[simp] theorem toMv_coefficientIn (p : Poly) (x : String) (i : ℕ) :
    (p.coefficientIn x i).toMv = (univariate x p.toMv).coeff i := by
  rw [← map_inVar, Polynomial.coeff_map, coeff_inVar]
  rfl

/-- The list of the coefficients ends with the degree. -/
theorem toMv_coefficientsIn (p : Poly) (x : String) (i : ℕ) :
    (p.coefficientsIn x)[i]?.map toMv
      = if i ≤ p.toMv.degreeOf x then some ((univariate x p.toMv).coeff i) else none := by
  rw [coefficientsIn, List.getElem?_map, ← degreeIn_eq]
  split
  · next h =>
    rw [List.getElem?_range (Nat.lt_succ_of_le h), Option.map_some, Option.map_some,
      toMv_coefficientIn]
  · next h =>
    rw [List.getElem?_eq_none (by rw [List.length_range]; omega)]
    rfl

/-! ## Constructions -/

/-- How a polynomial is built. -/
inductive Construction where
  | constant (c : ℚ)
  | var (x : String)
  | monomial (m : Monomial.Construction) (c : ℚ)
  | addTerm (r : Construction) (m : Monomial.Construction) (c : ℚ)
  | add (r s : Construction)
  | sub (r s : Construction)
  | neg (r : Construction)
  | mul (r s : Construction)
  | scale (c : ℚ) (r : Construction)
  | mulTerm (m : Monomial.Construction) (c : ℚ) (r : Construction)
  | pow (r : Construction) (n : ℕ)
  | derivative (r : Construction) (x : String)
  | substituteZero (r : Construction) (x : String)
  | divMonomial (r : Construction) (m : Monomial.Construction)
  | coefficientIn (r : Construction) (x : String) (i : ℕ)

namespace Construction

/-- Carry out the operations.  Nothing is built when a monomial does not divide what it
should, or when there is no such coefficient. -/
def build : Construction → Option Poly
  | constant c => some (.constant c)
  | var x => some (.var x)
  | monomial m c => m.build.map fun k => .monomial k c
  | addTerm r m c => Option.map₂ (fun p k => p.addTerm k c) r.build m.build
  | add r s => Option.map₂ Poly.add r.build s.build
  | sub r s => Option.map₂ Poly.sub r.build s.build
  | neg r => r.build.map Poly.neg
  | mul r s => Option.map₂ Poly.mul r.build s.build
  | scale c r => r.build.map (Poly.scale c)
  | mulTerm m c r => Option.map₂ (fun k p => p.mulTerm k c) m.build r.build
  | pow r n => r.build.map fun p => p.pow n
  | derivative r x => r.build.map fun p => p.derivative x
  | substituteZero r x => r.build.map fun p => p.substituteZero x
  | divMonomial r m => r.build.bind fun p => m.build.bind fun k => p.divMonomial? k
  | coefficientIn r x i => r.build.bind fun p => (p.coefficientsIn x)[i]?

open Classical in
/-- The same operations on multivariate polynomials. -/
noncomputable def meaning : Construction → Option (MvPolynomial String ℚ)
  | constant c => some (C c)
  | var x => some (X x)
  | monomial m c => m.meaning.map fun e => MvPolynomial.monomial e c
  | addTerm r m c => Option.map₂ (fun f e => f + MvPolynomial.monomial e c) r.meaning m.meaning
  | add r s => Option.map₂ (· + ·) r.meaning s.meaning
  | sub r s => Option.map₂ (· - ·) r.meaning s.meaning
  | neg r => r.meaning.map fun f => -f
  | mul r s => Option.map₂ (· * ·) r.meaning s.meaning
  | scale c r => r.meaning.map fun f => C c * f
  | mulTerm m c r => Option.map₂ (fun e f => MvPolynomial.monomial e c * f) m.meaning r.meaning
  | pow r n => r.meaning.map fun f => f ^ n
  | derivative r x => r.meaning.map fun f => pderiv x f
  | substituteZero r x => r.meaning.map fun f => zeroFor x f
  | divMonomial r m => r.meaning.bind fun f => m.meaning.bind fun e =>
      if MvPolynomial.monomial e 1 ∣ f then some (f.divMonomial e) else none
  | coefficientIn r x i => r.meaning.bind fun f =>
      if i ≤ f.degreeOf x then some ((univariate x f).coeff i) else none

end Construction

/-- One operation on what is built is the same operation on what it means. -/
theorem map_toMv_map {f : Poly → Poly} {g : MvPolynomial String ℚ → MvPolynomial String ℚ}
    (h : ∀ p, (f p).toMv = g p.toMv) (o : Option Poly) :
    (o.map f).map toMv = (o.map toMv).map g := by
  rw [Option.map_map, Option.map_map]
  exact congrArg (o.map ·) (funext h)

namespace Construction

/-- What is built denotes what the construction stands for. -/
theorem map_build (r : Construction) : r.build.map toMv = r.meaning := by
  induction r with
  | constant c => exact congrArg some (toMv_constant c)
  | var x => exact congrArg some (toMv_var x)
  | monomial m c =>
    rw [build, meaning, ← m.map_build, Option.map_map, Option.map_map]
    exact congrArg (m.build.map ·) (funext fun k => toMv_monomial k c)
  | addTerm r m c hr =>
    rw [build, meaning, ← m.map_build, ← hr]
    exact Option.map_map₂_distrib fun p k => toMv_addTerm p k c
  | add r s hr hs =>
    rw [build, meaning, ← hr, ← hs]
    exact Option.map_map₂_distrib toMv_add
  | sub r s hr hs =>
    rw [build, meaning, ← hr, ← hs]
    exact Option.map_map₂_distrib toMv_sub
  | neg r hr =>
    rw [build, meaning, ← hr]
    exact map_toMv_map toMv_neg r.build
  | mul r s hr hs =>
    rw [build, meaning, ← hr, ← hs]
    exact Option.map_map₂_distrib toMv_mul
  | scale c r hr =>
    rw [build, meaning, ← hr]
    exact map_toMv_map (toMv_scale c) r.build
  | mulTerm m c r hr =>
    rw [build, meaning, ← m.map_build, ← hr]
    exact Option.map_map₂_distrib fun k p => toMv_mulTerm p k c
  | pow r n hr =>
    rw [build, meaning, ← hr]
    exact map_toMv_map (fun p => toMv_pow p n) r.build
  | derivative r x hr =>
    rw [build, meaning, ← hr]
    exact map_toMv_map (fun p => toMv_derivative p x) r.build
  | substituteZero r x hr =>
    rw [build, meaning, ← hr]
    exact map_toMv_map (fun p => toMv_substituteZero p x) r.build
  | divMonomial r m hr =>
    rw [build, meaning, ← m.map_build, ← hr]
    cases r.build with
    | none => rfl
    | some p =>
      cases m.build with
      | none => rfl
      | some k => exact toMv_divMonomial? p k
  | coefficientIn r x i hr =>
    rw [build, meaning, ← hr]
    cases r.build with
    | none => rfl
    | some p => exact toMv_coefficientsIn p x i

end Construction

/-! ## Normal forms -/

/-- The terms are stored in normal form. -/
structure Normal (p : Poly) : Prop where
  nodup : (p.terms.map fun t => t.1).Nodup
  coeff_ne_zero : ∀ t ∈ p.terms, t.2 ≠ 0
  names_increasing : ∀ t ∈ p.terms, t.1.powers.Pairwise fun a b => a.1 < b.1
  exponents_pos : ∀ t ∈ p.terms, ∀ w ∈ t.1.powers, 1 ≤ w.2

theorem normal (p : Poly) : p.Normal where
  nodup := p.coeffs.nodup_keys
  coeff_ne_zero := p.coeffs.nonzero
  names_increasing t _ := t.1.exponents.sorted.imp compare_string_lt_iff.1
  exponents_pos t _ w hw := Nat.one_le_iff_ne_zero.2 (t.1.exponents.nonzero w hw)

theorem terms_inj {p q : Poly} : p.terms = q.terms ↔ p = q := by
  refine ⟨fun h => toMv_injective ?_, congrArg terms⟩
  rw [toMv, toMv, h]

theorem getElem_coefficientsIn (p : Poly) (x : String) (i : Fin (p.coefficientsIn x).length) :
    (p.coefficientsIn x)[i] = p.coefficientIn x i := by
  obtain ⟨i, hi⟩ := i
  simp only [coefficientsIn, Fin.getElem_fin, List.getElem_map, List.getElem_range]

/-- A polynomial is the sum of its listed coefficients times the powers of the variable. -/
theorem sum_coefficientsIn (p : Poly) (x : String) :
    ∑ i : Fin (p.coefficientsIn x).length, (p.coefficientsIn x)[i] * var x ^ (i : ℕ) = p := by
  have hlength : (p.coefficientsIn x).length = (inVar x p).natDegree + 1 := by
    rw [natDegree_inVar, coefficientsIn, List.length_map, List.length_range]
  conv_rhs => rw [← eval_inVar x p, Polynomial.eval_eq_sum_range, ← hlength,
    ← Fin.sum_univ_eq_sum_range fun i => (inVar x p).coeff i * var x ^ i]
  refine Finset.sum_congr rfl fun i _ => ?_
  rw [getElem_coefficientsIn, coeff_inVar]

theorem notMem_vars_of_mem_coefficientsIn {p c : Poly} {x : String}
    (hc : c ∈ p.coefficientsIn x) : x ∉ c.vars := by
  obtain ⟨i, -, rfl⟩ := List.mem_map.1 hc
  simp [mem_vars_iff]

/-- Whatever is built denotes the polynomial that the operations stand for and is stored
in normal form, so that equal terms are equal polynomials; and it is recovered from its
coefficients in any variable, which are free of that variable. -/
theorem construction_faithful :
    (∀ r : Construction, r.build.map toMv = r.meaning) ∧
    (∀ (r : Construction) (p : Poly), r.build = some p → p.Normal) ∧
    (∀ (r s : Construction) (p q : Poly), r.build = some p → s.build = some q →
      (p.terms = q.terms ↔ r.meaning = s.meaning)) ∧
    (∀ (r : Construction) (p : Poly) (x : String), r.build = some p →
      ∑ i : Fin (p.coefficientsIn x).length, (p.coefficientsIn x)[i] * var x ^ (i : ℕ) = p ∧
      ∀ c ∈ p.coefficientsIn x, x ∉ c.vars) := by
  refine ⟨Construction.map_build, fun r p _ => p.normal, fun r s p q hr hs => ?_,
    fun r p x _ => ⟨p.sum_coefficientsIn x, fun c => notMem_vars_of_mem_coefficientsIn⟩⟩
  rw [← r.map_build, ← s.map_build, hr, hs, Option.map_some, Option.map_some, Option.some_inj,
    toMv_inj, terms_inj]

/-- The derivative of `(x + 1)²` is told to be `2 (x + 1)` by its terms, and the square is
recovered from its three coefficients. -/
theorem construction_faithful_square :
    (Construction.derivative (.pow (.add (.var "x") (.constant 1)) 2) "x").meaning
      = (Construction.scale 2 (.add (.var "x") (.constant 1))).meaning ∧
    (((var "x").add (constant 1)).pow 2).Normal ∧
    ∑ i : Fin ((((var "x").add (constant 1)).pow 2).coefficientsIn "x").length,
        ((((var "x").add (constant 1)).pow 2).coefficientsIn "x")[i] * var "x" ^ (i : ℕ)
      = ((var "x").add (constant 1)).pow 2 := by
  obtain ⟨-, hnormal, hterms, hsum⟩ := construction_faithful
  have hbuild : (Construction.pow (.add (.var "x") (.constant 1)) 2).build
      = some (((var "x").add (constant 1)).pow 2) := rfl
  exact ⟨(hterms _ _ _ _ rfl rfl).1 (by decide +kernel), hnormal _ _ hbuild,
    (hsum _ _ "x" hbuild).1⟩

end Poly
end Meadow
