import Mathlib
import Meadow.Proofs.Poly.LongDivision
import Meadow.Proofs.Stored.Product
import Meadow.Stored.Gcd

set_option autoImplicit false

/-!
# Division of stored polynomials

Nothing bounds the rounds of a division beforehand.  Those of stored polynomials are followed
along the rounds on what they represent, which come to an end (`Poly.exists_longDivision`); each
multiplies by a term, and so may overflow.  As long as none does, a division decides
divisibility (`Stored.Poly.divExact?_decides`).
-/

namespace Meadow.Stored.Poly

open Machine (Ensures Returns Overflows)

variable {p d : Poly} {a b : Meadow.Poly} {lead : Monomial × ℚ} {lead' : Meadow.Monomial × ℚ}

theorem Represents.cancelLeading (hd : d.Represents b) (hlead : TermRel lead lead')
    {r' q' : Meadow.Poly} {result : Option Meadow.Poly}
    (hrounds : Meadow.Poly.Cancels b lead' r' q' result) {r : Poly} (hr : r.Represents r')
    {ts : List (Monomial × ℚ)} {us : List (Meadow.Monomial × ℚ)} (hts : List.Forall₂ TermRel ts us)
    (hq : q' = .ofTerms us.reverse) :
    Ensures (d.cancelLeading lead r ts) (Option.Rel Represents · result) := by
  induction hrounds generalizing r ts us with
  | done ht =>
    rw [Poly.cancelLeading, (eq_none_iff_of_rel hr.leadingTerm?).2 ht, hq]
    exact Machine.ensures_pure (.some (represents_ofTerms (List.rel_reverse hts)))
  | stuck ht hm =>
    obtain ⟨t, ht, hterm⟩ := exists_of_rel hr.leadingTerm? ht
    rw [Poly.cancelLeading, ht]
    dsimp only
    rw [(eq_none_iff_of_rel (hterm.1.divide? hlead.1)).2 hm]
    exact Machine.ensures_pure .none
  | @round r' q' t' m' result ht hm _ ih =>
    obtain ⟨t, ht, hterm⟩ := exists_of_rel hr.leadingTerm? ht
    obtain ⟨m, hm, hk⟩ := exists_of_rel (hterm.1.divide? hlead.1) hm
    have hc : t.2 / lead.2 = t'.2 / lead'.2 := by rw [hterm.2, hlead.2]
    rw [Poly.cancelLeading, ht]
    dsimp only
    rw [hm, hc]
    refine (hd.mulTerm hk _).bind fun s hs => ?_
    have hts : List.Forall₂ TermRel ((m, t'.2 / lead'.2) :: ts) ((m', t'.2 / lead'.2) :: us) :=
      .cons ⟨hk, rfl⟩ hts
    refine ih (hr.sub hs) hts ?_
    rw [hq, List.reverse_cons, Meadow.Poly.ofTerms_eq_sum, Meadow.Poly.ofTerms_eq_sum,
      Meadow.Poly.addTerm_eq]
    simp [add_comm]

theorem Represents.divExact? (hp : p.Represents a) (hd : d.Represents b) :
    Ensures (p.divExact? d) (Option.Rel Represents · (a.divExact? b)) := by
  obtain ⟨result, hdivision⟩ := Meadow.Poly.exists_longDivision a b
  rw [← hdivision.eq_divExact?, Poly.divExact?]
  cases hdivision with
  | byZero hb =>
    rw [(eq_none_iff_of_rel hd.leadingTerm?).2 hb]
    exact Machine.ensures_pure .none
  | rounds hb hrounds =>
    obtain ⟨lead, hd', hlead⟩ := exists_of_rel hd.leadingTerm? hb
    rw [hd']
    exact hd.cancelLeading hlead hrounds hp .nil rfl

/-! ## The decision -/

/-- The polynomial that a result represents is the result of the same kind. -/
theorem exists_eq_some_iff {x : Option Poly} {y : Option Meadow.Poly}
    (h : Option.Rel Represents x y) (q' : Meadow.Poly) :
    (∃ q, x = some q ∧ q.Represents q') ↔ y = some q' := by
  constructor
  · rintro ⟨q, rfl, hq⟩
    cases h with
    | some hq' => rw [(hq'.eq_iff hq).1 rfl]
  · exact exists_of_rel h

/-- Unless an exponent overflows, the division of stored polynomials ends, and it finds a quotient
exactly if the divisor is not zero and divides what is divided. -/
theorem divExact?_decides (hp : p.Represents a) (hd : d.Represents b) :
    Ensures (p.divExact? d) fun result =>
      (∀ q', (∃ q, result = some q ∧ q.Represents q') ↔ b ≠ 0 ∧ a = q'.mul b) ∧
      (∀ q, result = some q → q.Proper) ∧
      (result = none ↔ b = 0 ∨ ¬ b ∣ a) := by
  refine (hp.divExact? hd).mono fun result hresult => ?_
  obtain ⟨-, -, hsome, hnone⟩ := Meadow.Poly.longDivision_decides_dvd a b
  refine ⟨fun q' => (exists_eq_some_iff hresult q').trans (hsome q'), ?_,
    (eq_none_iff_of_rel hresult).trans hnone⟩
  rintro q rfl
  generalize a.divExact? b = y at hresult
  cases hresult with
  | some hq => exact proper_iff.2 ⟨_, hq⟩

/-- The line `x + y ^ e`. -/
def line (e : UInt32) : Poly := (var "x").add (monomial (.power "y" e) 1)

/-- The difference `x ^ 2 - y ^ 2`. -/
def squares : Poly := ofTerms [(.power "x" 2, 1), (.power "y" 2, -1)]

/-- What `squares` represents. -/
def squares' : Meadow.Poly := .ofTerms [(.power "x" 2, 1), (.power "y" 2, -1)]

theorem represents_squares : squares.Represents squares' := by decide +kernel

theorem represents_line (e : UInt32) :
    (line e).Represents ((Meadow.Poly.var "x").add (.monomial (.power "y" e.toNat) 1)) :=
  (represents_var "x").add (represents_monomial (Monomial.represents_power "y" rfl) 1)

theorem not_dvd_squares :
    ¬ (Meadow.Poly.var "x").add (.monomial (.power "y" 0x80000001) 1) ∣ squares' :=
  Meadow.Poly.not_dvd_of_degreeIn_lt (v := "y") (by decide +kernel) (by decide +kernel)

/-- The quotient of `x ^ 2 - y ^ 2` by `x + y` is `x - y` in both builds, and `x + y` divides. -/
theorem divExact?_decides_squares :
    ∃ a b : Meadow.Poly, squares.Represents a ∧ (line 1).Represents b ∧
      Returns (squares.divExact? (line 1)) (some ((var "x").sub (var "y"))) ∧ b ∣ a := by
  have hreturns : Returns (squares.divExact? (line 1)) (some ((var "x").sub (var "y"))) := by
    decide_cbv
  obtain ⟨-, -, hnone⟩ :=
    (divExact?_decides represents_squares (represents_line 1)).of_returns hreturns
  exact ⟨_, _, represents_squares, represents_line 1, hreturns,
    by_contra fun hdvd => absurd (hnone.2 (Or.inr hdvd)) (Option.some_ne_none _)⟩

/-- The wrapping build divides `x ^ 2 - y ^ 2` by `x + y ^ (2 ^ 31 + 1)`, which does not divide
it. -/
theorem divExact?_wraps :
    ∃ a b : Meadow.Poly, squares.Represents a ∧ (line 0x80000001).Represents b ∧ ¬ b ∣ a ∧
      Overflows (squares.divExact? (line 0x80000001)) ∧
      (squares.divExact? (line 0x80000001)).value? .wrapping
        = some (some ((var "x").sub (monomial (.power "y" 0x80000001) 1))) := by
  exact ⟨_, _, represents_squares, represents_line 0x80000001, not_dvd_squares, by decide_cbv,
    by decide_cbv⟩

end Meadow.Stored.Poly
