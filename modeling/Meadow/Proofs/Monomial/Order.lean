import Mathlib
import Meadow.Monomial.Order

set_option autoImplicit false

/-!
# The lexicographic order is admissible

An order of the monomials is admissible if it is total, has the empty product as its least
element, is kept by multiplication, and lets nothing descend forever as long as there are
finitely many variables (`Monomial.Admissible`).  The lexicographic order is
(`Monomial.lexCmp_admissible`): what decides between two monomials is the first variable on which
their exponents differ, so the last law is that of a lexicographic order of finitely many numbers
(`Monomial.wellFounded_lexCmp`).  Over all variables something does descend forever
(`Monomial.exists_descending`).

In an admissible order a divisor is never above what it divides
(`Monomial.Admissible.isLE_of_dvd`), and the greatest common divisor is the greatest of the common
divisors by the order as well.
-/

namespace Meadow

namespace Monomial

/-! ## Products and the order -/

theorem mul_comm (m n : Monomial) : m.mul n = n.mul m :=
  ext_exponent fun v => by rw [exponent_mul, exponent_mul, Nat.add_comm]

theorem one_mul (m : Monomial) : one.mul m = m :=
  ext_exponent fun v => by rw [exponent_mul, exponent_one, Nat.zero_add]

/-- Products of monomials that are not above two others are below their product, or
nothing was below. -/
theorem mul_eq_or_lt {m m' n n' : Monomial} (hm : m = m' ∨ m.lexCmp m' = .lt)
    (hn : n = n' ∨ n.lexCmp n' = .lt) :
    (m = m' ∧ n = n') ∨ (m.mul n).lexCmp (m'.mul n') = .lt := by
  have right {k l : Monomial} (h : k.lexCmp l = .lt) (i : Monomial) :
      (i.mul k).lexCmp (i.mul l) = .lt := by
    rw [mul_comm i k, mul_comm i l]
    exact mul_lexCmp_lt h i
  rcases hm with rfl | hm
  · rcases hn with rfl | hn
    · exact Or.inl ⟨rfl, rfl⟩
    · exact Or.inr (right hn m)
  · rcases hn with rfl | hn
    · exact Or.inr (mul_lexCmp_lt hm n)
    · exact Or.inr (Std.TransCmp.lt_trans (mul_lexCmp_lt hm n) (right hn m'))

theorem lexCmp_irrefl (m : Monomial) : m.lexCmp m ≠ .lt := by
  rw [lexCmp_eq_eq_iff.2 rfl]
  exact fun h => nomatch h

/-- The empty product is below all other monomials. -/
theorem isLE_one_lexCmp (m : Monomial) : (one.lexCmp m).isLE := by
  have hpowers : one.lexCmp m = List.compareLex Power.lexCmp [] m.powers := rfl
  rw [hpowers]
  cases m.powers <;> rfl

/-! ## Descending monomials -/

/-- No other variables than the listed ones occur. -/
def Over (vs : List String) (m : Monomial) : Prop := ∀ x, x ∉ vs → m.exponent x = 0

/-- Over finitely many variables, no monomials descend forever in the lexicographic order. -/
theorem wellFounded_lexCmp (vs : List String) :
    WellFounded fun m n : { m : Monomial // m.Over vs } => m.1.lexCmp n.1 = .lt := by
  let r (v w : { v : String // v ∈ vs }) : Prop := v.1 < w.1
  have : IsStrictTotalOrder { v : String // v ∈ vs } r :=
    { trichotomous := fun v w hvw hwv => Subtype.ext (le_antisymm (not_lt.1 hwv) (not_lt.1 hvw))
      irrefl := fun v => lt_irrefl v.1
      trans := fun _ _ _ => lt_trans }
  have : Finite { v : String // v ∈ vs } := List.finite_toSet vs
  have hlex : WellFounded (Pi.Lex r fun {_} (d e : ℕ) => d < e) :=
    Pi.Lex.wellFounded r fun _ => wellFounded_lt
  refine Subrelation.wf ?_ (InvImage.wf (fun (m : { m : Monomial // m.Over vs })
    (v : { v : String // v ∈ vs }) => m.1.exponent v.1) hlex)
  rintro m n hmn
  obtain ⟨v, hlt, heq⟩ := lexCmp_eq_lt_iff.1 hmn
  have hv : v ∈ vs := by
    by_contra hv
    rw [n.2 v hv] at hlt
    exact absurd hlt (Nat.not_lt_zero _)
  exact ⟨⟨v, hv⟩, fun w hw => heq w.1 hw, hlt⟩

/-- A sequence of monomials over finitely many variables does not descend at every step. -/
theorem exists_lexCmp_ne_lt (vs : List String) (ms : ℕ → Monomial) (h : ∀ i, (ms i).Over vs) :
    ∃ i, (ms (i + 1)).lexCmp (ms i) ≠ .lt := by
  by_contra hdescending
  push Not at hdescending
  have hempty := wellFounded_iff_isEmpty_descending_chain.1 (wellFounded_lexCmp vs)
  exact hempty.false ⟨fun i => ⟨ms i, h i⟩, hdescending⟩

/-- A name of a given length. -/
def nameOfLength (i : ℕ) : String := String.ofList (List.replicate i 'x')

theorem nameOfLength_lt_succ (i : ℕ) : nameOfLength i < nameOfLength (i + 1) := by
  rw [String.lt_iff_toList_lt, nameOfLength, nameOfLength, String.toList_ofList,
    String.toList_ofList]
  induction i with
  | zero => exact List.nil_lt_cons _ _
  | succ i ih => exact List.cons_lt_cons_self.2 ih

/-- Over all variables some monomials do descend forever: the variables themselves, one behind
the other. -/
theorem exists_descending : ∃ ms : ℕ → Monomial, ∀ i, (ms (i + 1)).lexCmp (ms i) = .lt := by
  refine ⟨fun i => power (nameOfLength i) 1, fun i =>
    lexCmp_eq_lt_iff.2 ⟨nameOfLength i, ?_, fun w hw => ?_⟩⟩
  · rw [exponent_power, exponent_power, if_pos rfl, if_neg (nameOfLength_lt_succ i).ne']
    exact Nat.one_pos
  · rw [exponent_power, exponent_power, if_neg hw.ne',
      if_neg (hw.trans (nameOfLength_lt_succ i)).ne']

/-! ## Divisors -/

instance : Dvd Monomial where dvd d m := ∃ q : Monomial, m = q.mul d

theorem dvd_iff_exponent {d m : Monomial} : d ∣ m ↔ ∀ v, d.exponent v ≤ m.exponent v := by
  constructor
  · rintro ⟨q, rfl⟩ v
    rw [exponent_mul]
    exact Nat.le_add_left _ _
  · intro h
    obtain ⟨q, hq⟩ : ∃ q, m.divide? d = some q := ⟨_, if_pos (divides_iff.2 h)⟩
    exact ⟨q, (divide?_eq_some_iff.1 hq).trans (mul_comm d q)⟩

theorem dvd_gcd_iff {d m n : Monomial} : d ∣ m.gcd n ↔ d ∣ m ∧ d ∣ n := by
  simp only [dvd_iff_exponent, exponent_gcd, le_min_iff, forall_and]

/-! ## Admissible orders -/

/-- A total order of the monomials with the empty product as its least element that
multiplication keeps and in which nothing over finitely many variables descends forever. -/
structure Admissible (cmp : Monomial → Monomial → Ordering) : Prop
    extends Std.TransCmp cmp, Std.LawfulEqCmp cmp where
  isLE_one (m : Monomial) : (cmp one m).isLE
  mul_right (m n k : Monomial) : cmp (m.mul k) (n.mul k) = cmp m n
  exists_ne_lt (vs : List String) (ms : ℕ → Monomial) (h : ∀ i, (ms i).Over vs) :
    ∃ i, cmp (ms (i + 1)) (ms i) ≠ .lt

/-- Divisors are not above what they divide. -/
theorem Admissible.isLE_of_dvd {cmp : Monomial → Monomial → Ordering} (h : Admissible cmp)
    {d m : Monomial} (hd : d ∣ m) : (cmp d m).isLE := by
  obtain ⟨q, rfl⟩ := hd
  have hone := h.isLE_one q
  rwa [← h.mul_right one q d, one_mul] at hone

theorem admissible_lexCmp : Admissible lexCmp where
  toTransCmp := inferInstance
  toLawfulEqCmp := inferInstance
  isLE_one := isLE_one_lexCmp
  mul_right := lexCmp_mul_right
  exists_ne_lt := exists_lexCmp_ne_lt

/-- The lexicographic order is admissible, a quotient is what the divisor has to be multiplied by,
and the greatest common divisor is the common divisor that is a multiple of all others and not
below any of them. -/
theorem lexCmp_admissible :
    Admissible lexCmp ∧
    (∀ m n q : Monomial, m.divide? n = some q ↔ m = q.mul n) ∧
    (∀ m n : Monomial, (m.mul n).divide? n = some m) ∧
    ∀ m n : Monomial, m.gcd n ∣ m ∧ m.gcd n ∣ n ∧
      ∀ d : Monomial, d ∣ m → d ∣ n → d ∣ m.gcd n ∧ (d.lexCmp (m.gcd n)).isLE := by
  refine ⟨admissible_lexCmp, fun m n q => ?_, fun m n => ?_, fun m n => ?_⟩
  · rw [divide?_eq_some_iff, mul_comm]
  · rw [divide?_eq_some_iff, mul_comm]
  · obtain ⟨hleft, hright⟩ := dvd_gcd_iff.1 (dvd_iff_exponent.2 fun _ => le_rfl : m.gcd n ∣ m.gcd n)
    refine ⟨hleft, hright, fun d hm hn => ?_⟩
    have hd : d ∣ m.gcd n := dvd_gcd_iff.2 ⟨hm, hn⟩
    exact ⟨hd, admissible_lexCmp.isLE_of_dvd hd⟩

end Monomial
end Meadow
