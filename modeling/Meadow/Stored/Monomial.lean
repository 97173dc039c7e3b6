import Meadow.Machine
import Meadow.Monomial.Order

set_option autoImplicit false

/-!
# Stored monomials

A monomial as the program stores it: the powers of its variables in increasing order of
their names, each exponent in a word.  Powers are added to one another name by name, and
an exponent that wraps around to zero stays in its place, so one and the same product of
variables may be stored in several ways.
-/

namespace Meadow.Stored

/-! ## Powers as letters -/

/-- A word as a number keeps its place among the others. -/
theorem compare_toNat (a b : UInt32) : compare a b = compare a.toNat b.toNat := by
  change compareOfLessAndEq a b = compareOfLessAndEq a.toNat b.toNat
  simp only [compareOfLessAndEq, UInt32.lt_iff_toNat_lt, UInt32.toNat_inj]

namespace Power

/-- A power with its exponent as a number. -/
def number (p : String × UInt32) : String × Nat := (p.1, p.2.toNat)

/-- The alphabet of the lexicographic order. -/
def lexCmp (p q : String × UInt32) : Ordering := (compare q.1 p.1).then (compare p.2 q.2)

/-- The alphabet of the structural order. -/
def cmp (p q : String × UInt32) : Ordering := (compare p.1 q.1).then (compare p.2 q.2)

theorem number_injective {p q : String × UInt32} (h : number p = number q) : p = q := by
  obtain ⟨v, e⟩ := p
  obtain ⟨w, f⟩ := q
  simp only [number, Prod.mk.injEq, UInt32.toNat_inj] at h
  rw [h.1, h.2]

theorem lexCmp_number (p q : String × UInt32) :
    lexCmp p q = Meadow.Power.lexCmp (number p) (number q) := by
  rw [lexCmp, compare_toNat]
  rfl

theorem cmp_number (p q : String × UInt32) :
    cmp p q = Meadow.Power.cmp (number p) (number q) := by
  rw [cmp, compare_toNat]
  rfl

end Power

/-! ## Monomials -/

/-- A product of powers of variables as it is stored. -/
structure Monomial where
  powers : List (String × UInt32)
  deriving DecidableEq

namespace Monomial

/-- The empty product. -/
def one : Monomial := ⟨[]⟩

instance : Inhabited Monomial := ⟨one⟩

/-- A variable raised to a power; the power zero is the empty product. -/
def power (v : String) (e : UInt32) : Monomial := if e = 0 then one else ⟨[(v, e)]⟩

/-- Is this the empty product? -/
def isOne (m : Monomial) : Bool := m.powers.isEmpty

/-- The exponent stored for a variable, zero if there is none. -/
def exponent (m : Monomial) (v : String) : UInt32 := Entries.get 0 v m.powers

/-- The names of the variables for which an exponent is stored. -/
def names (m : Monomial) : List String := m.powers.map Prod.fst

/-- The sum of the exponents. -/
def degree (m : Monomial) : Machine UInt32 :=
  m.powers.foldlM (fun d p => Machine.add d p.2) 0

/-- Multiply powers by one more power. -/
def mulPower (v : String) (e : UInt32) :
    List (String × UInt32) → Machine (List (String × UInt32))
  | [] => return [(v, e)]
  | p :: ps =>
    match compare p.1 v with
    | .lt => return p :: (← mulPower v e ps)
    | .eq => return (p.1, ← Machine.add p.2 e) :: ps
    | .gt => return (v, e) :: p :: ps

/-- The product. -/
def mul (m n : Monomial) : Machine Monomial :=
  return ⟨← n.powers.foldlM (fun ps p => mulPower p.1 p.2 ps) m.powers⟩

/-- The greatest common divisor. -/
def gcd (m n : Monomial) : Monomial :=
  ⟨Entries.mapVals 0 (fun v e => min e (n.exponent v)) m.powers⟩

/-- The monomial with one variable removed. -/
def without (m : Monomial) (v : String) : Monomial :=
  ⟨m.powers.filter fun p => decide (p.1 ≠ v)⟩

/-- The quotient `m / n`, if `n` divides `m`. -/
def divide? (m n : Monomial) : Option Monomial :=
  if n.powers.all fun p => decide (p.2 ≤ m.exponent p.1) then
    some ⟨Entries.mapVals 0 (fun v e => e - n.exponent v) m.powers⟩
  else none

/-! ## The orders -/

/-- The lexicographic monomial order. -/
def lexCmp (m n : Monomial) : Ordering := List.compareLex Power.lexCmp m.powers n.powers

/-- The structural order of the sorted lists of powers. -/
def cmp (m n : Monomial) : Ordering := List.compareLex Power.cmp m.powers n.powers

/-- The powers with their exponents as numbers. -/
def numbers (m : Monomial) : List (String × Nat) := m.powers.map Power.number

theorem numbers_injective {m n : Monomial} (h : m.numbers = n.numbers) : m = n := by
  obtain ⟨ps⟩ := m
  obtain ⟨qs⟩ := n
  rw [Monomial.mk.injEq]
  exact List.map_inj_right (fun _ _ => Power.number_injective) |>.1 h

/-- Words over an alphabet compare as their images letter by letter do. -/
theorem compareLex_map {α β : Type} {cmp : α → α → Ordering} {cmp' : β → β → Ordering}
    {f : α → β} (h : ∀ a b, cmp a b = cmp' (f a) (f b)) (as bs : List α) :
    List.compareLex cmp as bs = List.compareLex cmp' (as.map f) (bs.map f) := by
  induction as generalizing bs with
  | nil => cases bs <;> rfl
  | cons a as ih =>
    cases bs with
    | nil => rfl
    | cons b bs =>
      rw [List.map_cons, List.map_cons, List.compareLex_cons_cons, List.compareLex_cons_cons,
        h, ih]

theorem lexCmp_numbers (m n : Monomial) :
    m.lexCmp n = List.compareLex Meadow.Power.lexCmp m.numbers n.numbers :=
  compareLex_map Power.lexCmp_number m.powers n.powers

theorem cmp_numbers (m n : Monomial) :
    m.cmp n = List.compareLex Meadow.Power.cmp m.numbers n.numbers :=
  compareLex_map Power.cmp_number m.powers n.powers

instance : Std.TransCmp lexCmp := transCmp_of_image lexCmp_numbers

instance : Std.LawfulEqCmp lexCmp := lawfulEqCmp_of_image lexCmp_numbers numbers_injective

instance : Std.TransCmp cmp := transCmp_of_image cmp_numbers

instance : Std.LawfulEqCmp cmp := lawfulEqCmp_of_image cmp_numbers numbers_injective

/-! ## The text -/

/-- The text of a variable raised to a power. -/
def renderPower (p : String × UInt32) : String :=
  if p.2 = 1 then p.1 else p.1 ++ "**" ++ toString p.2

/-- The text of a monomial, such as `x**2*y`. -/
def render (m : Monomial) : String := "*".intercalate (m.powers.map renderPower)

end Monomial
end Meadow.Stored
