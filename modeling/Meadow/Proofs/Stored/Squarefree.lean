import Mathlib
import Meadow.Proofs.Poly.Decomposition
import Meadow.Proofs.Stored.Gcd

set_option autoImplicit false

/-!
# The squarefree decomposition of stored polynomials

The stored decomposition counts its rounds, and gives up when a division is not exact or when
there are more rounds than the degree allows.  `Stored.Poly.Decomposes` is a decomposition without
these exits, every step of which returns in both builds.  Unless an exponent overflows, that of a
polynomial of content one is of this kind (`Stored.Poly.squarefreeParts_decomposes`).
-/

namespace Meadow.Stored.Poly

open Machine (Ensures Returns)

variable {v : String} {p b d : Poly} {a b' d' : Meadow.Poly}

/-- A stored polynomial with a multiplicity, and what they represent. -/
abbrev PartRel : Poly × UInt32 → Meadow.Poly × ℕ → Prop := EntryRel Represents Monomial.WordRel

theorem ensures_add_one {w : UInt32} {k : ℕ} (h : Monomial.WordRel w k) :
    Ensures (Machine.add w 1) (Monomial.WordRel · (k + 1)) :=
  (Machine.ensures_add w 1).mono fun _ hsum => hsum.trans (congrArg (· + 1) h)

theorem rel_found {g : Poly} {g' : Meadow.Poly} (hg : g.Represents g') {w : UInt32} {k : ℕ}
    (hw : Monomial.WordRel w k) :
    List.Forall₂ PartRel (if g.degreeIn v = 0 then [] else [(g, w)])
      (if g'.degreeIn v = 0 then [] else [(g', k)]) := by
  exact rel_ite (R := List.Forall₂ PartRel) (hg.degreeIn v).eq_zero_iff .nil (.cons ⟨hg, hw⟩ .nil)

/-! ## With all exits -/

theorem ensures_squarefreeRounds (rounds : ℕ) {w : UInt32} {k : ℕ} (hw : Monomial.WordRel w k)
    (hb : b.Represents b') (hd : d.Represents d') :
    Ensures (squarefreeRounds v rounds w b d)
      (List.Forall₂ PartRel · (Meadow.Poly.squarefreeRounds v rounds k b' d')) := by
  induction rounds generalizing w k b d b' d' with
  | zero =>
    rw [squarefreeRounds, Meadow.Poly.squarefreeRounds]
    exact Machine.ensures_pure (rel_found hb hw)
  | succ rounds ih =>
    rw [squarefreeRounds, Meadow.Poly.squarefreeRounds]
    refine Ensures.ite (S := List.Forall₂ PartRel) (hb.degreeIn v).eq_zero_iff
      (Machine.ensures_pure .nil) ?_
    refine (hb.gcd hd).bind fun g hg => ?_
    have hfound := rel_found (v := v) hg hw
    refine (hb.divExact? hg).bind fun x hx => (hd.divExact? hg).bind fun y hy => ?_
    dsimp only
    generalize b'.divExact? _ = x' at hx ⊢
    generalize d'.divExact? _ = y' at hy ⊢
    cases hx with
    | none => exact Machine.ensures_pure (List.rel_append hfound (.cons ⟨hb, hw⟩ .nil))
    | some hquotient =>
      cases hy with
      | none => exact Machine.ensures_pure (List.rel_append hfound (.cons ⟨hb, hw⟩ .nil))
      | some hrest =>
        refine (hquotient.derivative v).bind fun e he => ?_
        refine (ensures_add_one hw).bind fun w' hw' => ?_
        exact (ih hw' hquotient (hrest.sub he)).map fun ps hps => List.rel_append hfound hps

theorem Represents.squarefreeParts (h : p.Represents a) (v : String) :
    Ensures (p.squarefreeParts v) (List.Forall₂ PartRel · (a.squarefreeParts v)) := by
  rw [Poly.squarefreeParts, Meadow.Poly.squarefreeParts]
  refine (h.derivative v).bind fun p' hp' => (h.gcd hp').bind fun g hg => ?_
  refine (h.divExact? hg).bind fun x hx => (hp'.divExact? hg).bind fun y hy => ?_
  dsimp only
  generalize a.divExact? _ = x' at hx ⊢
  generalize (a.derivative v).divExact? _ = y' at hy ⊢
  cases hx with
  | none => exact Machine.ensures_pure (.cons ⟨h, rfl⟩ .nil)
  | some hb =>
    cases hy with
    | none => exact Machine.ensures_pure (.cons ⟨h, rfl⟩ .nil)
    | some hc =>
      refine (hb.derivative v).bind fun e he => ?_
      refine (ensures_add_one (h.degreeIn v)).bind fun rounds hrounds => ?_
      rw [hrounds]
      exact ensures_squarefreeRounds _ rfl hb (hc.sub he)

/-! ## Without the exits -/

/-- So many rounds lead from `b` and `d`, in the round for the multiplicity `w`, to the parts from
there on.  Every step returns, and the divisions are exact. -/
inductive Rounds (v : String) : ℕ → UInt32 → Poly → Poly → List (Poly × UInt32) → Prop
  | done {w : UInt32} {b d : Poly} (hb : b.degreeIn v = 0) : Rounds v 0 w b d []
  | round {n : ℕ} {w w' : UInt32} {b d g b' c' e : Poly} {parts : List (Poly × UInt32)}
      (hb : b.degreeIn v ≠ 0) (hg : Returns (b.gcd d) g)
      (hb' : Returns (b.divExact? g) (some b')) (hc' : Returns (d.divExact? g) (some c'))
      (he : Returns (b'.derivative v) e) (hw : Returns (Machine.add w 1) w')
      (hrest : Rounds v n w' b' (c'.sub e) parts) :
      Rounds v (n + 1) w b d ((if g.degreeIn v = 0 then [] else [(g, w)]) ++ parts)

/-- A decomposition in so many rounds: the polynomial and its derivative are divided exactly by
their greatest common divisor, and the rounds start from the quotients. -/
inductive Decomposes (v : String) (p : Poly) : ℕ → List (Poly × UInt32) → Prop
  | rounds {n : ℕ} {p' g b c e : Poly} {parts : List (Poly × UInt32)}
      (hp' : Returns (p.derivative v) p') (hg : Returns (p.gcd p') g)
      (hb : Returns (p.divExact? g) (some b)) (hc : Returns (p'.divExact? g) (some c))
      (he : Returns (b.derivative v) e) (h : Rounds v n 1 b (c.sub e) parts) :
      Decomposes v p n parts

/-- Rounds over what is represented are rounds over what is stored, as long as they are counted
far enough. -/
theorem ensures_rounds {n k : ℕ} {parts : List (Meadow.Poly × ℕ)}
    (h : Meadow.Poly.Rounds v n k b' d' parts) {rounds : ℕ} (hn : n ≤ rounds) {w : UInt32}
    (hb : b.Represents b') (hd : d.Represents d') :
    Ensures (squarefreeRounds v rounds w b d) (Rounds v n w b d) := by
  induction h generalizing rounds w b d with
  | done hfree =>
    have hfree := (hb.degreeIn v).eq_zero_iff.2 hfree
    cases rounds with
    | zero | succ _ =>
      rw [squarefreeRounds, if_pos hfree]
      exact Machine.ensures_pure (.done hfree)
  | round hfree hquotient hrest _ ih =>
    have hfree := mt (hb.degreeIn v).eq_zero_iff.1 hfree
    obtain ⟨rounds, rfl⟩ : ∃ r, rounds = r + 1 := ⟨rounds - 1, by omega⟩
    rw [squarefreeRounds, if_neg hfree]
    refine (hb.gcd hd).bind_of_returns fun g hgcd hg => ?_
    refine (hb.divExact? hg).bind_of_returns fun x hx hxrel => ?_
    refine (hd.divExact? hg).bind_of_returns fun y hy hyrel => ?_
    rw [hquotient] at hxrel
    rw [hrest] at hyrel
    obtain ⟨q, rfl, hq⟩ := exists_of_rel hxrel rfl
    obtain ⟨c, rfl, hc⟩ := exists_of_rel hyrel rfl
    refine (hq.derivative v).bind_of_returns fun e he herel => ?_
    refine (Machine.ensures_add w 1).bind_of_returns fun w' hw _ => ?_
    exact (ih (Nat.le_of_succ_le_succ hn) hq (hc.sub herel)).map fun _ hps =>
      .round hfree hgcd hx hy he hw hps

theorem Represents.ensures_decomposes (h : p.Represents a) {n : ℕ}
    {parts : List (Meadow.Poly × ℕ)} (hdecomposes : Meadow.Poly.Decomposes v a n parts)
    (hn : n ≤ a.degreeIn v) : Ensures (p.squarefreeParts v) (Decomposes v p n) := by
  cases hdecomposes with
  | rounds hb hc hrounds =>
    rw [Poly.squarefreeParts]
    refine (h.derivative v).bind_of_returns fun p' hp' hp'rel => ?_
    refine (h.gcd hp'rel).bind_of_returns fun g hg hgrel => ?_
    refine (h.divExact? hgrel).bind_of_returns fun x hx hxrel => ?_
    refine (hp'rel.divExact? hgrel).bind_of_returns fun y hy hyrel => ?_
    rw [hb] at hxrel
    rw [hc] at hyrel
    obtain ⟨b, rfl, hbrel⟩ := exists_of_rel hxrel rfl
    obtain ⟨c, rfl, hcrel⟩ := exists_of_rel hyrel rfl
    refine (hbrel.derivative v).bind_of_returns fun e he herel => ?_
    refine (ensures_add_one (h.degreeIn v)).bind fun rounds hlimit => ?_
    rw [hlimit]
    refine (ensures_rounds hrounds (hn.trans (Nat.le_succ _)) hbrel (hcrel.sub herel)).mono ?_
    exact fun _ hps => .rounds hp' hg hx hy he hps

/-- Unless an exponent overflows, a polynomial of content one over a variable is decomposed without
any exit, in no more rounds than its degree.  The parts have the variable in them, are squarefree
and coprime to one another, and have increasing multiplicities; their powers multiply to the
polynomial, up to a rational factor. -/
theorem squarefreeParts_decomposes (h : p.Represents a) (hcontent : a.content v = 1) :
    Ensures (p.squarefreeParts v) fun parts =>
      (∃ n ≤ (p.degreeIn v).toNat, Decomposes v p n parts) ∧
      ∃ fs, List.Forall₂ PartRel parts fs ∧ (∀ f ∈ fs, 0 < f.1.degreeIn v ∧ Squarefree f.1) ∧
        (fs.Pairwise fun f g => IsRelPrime f.1 g.1) ∧ (fs.Pairwise fun f g => f.2 < g.2) ∧
        ∃ c : ℚ, c ≠ 0 ∧ a = (Factorization.product fs).scale c := by
  obtain ⟨⟨n, hn, hdecomposes⟩, hparts⟩ := Meadow.Poly.squarefreeParts_decomposition hcontent
  have hrun := h.ensures_decomposes ((hdecomposes n _).2 ⟨rfl, rfl⟩) hn
  refine (hrun.and (h.squarefreeParts v)).mono fun parts hps => ?_
  exact ⟨⟨n, hn.trans (h.degreeIn v).ge, hps.1⟩, _, hps.2, hparts⟩

/-- The product `(x + y) ^ 2 * (x - y)`. -/
def cubic : Poly :=
  ofTerms [(.power "x" 3, 1), (⟨[("x", 2), ("y", 1)]⟩, 1), (⟨[("x", 1), ("y", 2)]⟩, -1),
    (.power "y" 3, -1)]

/-- What `cubic` represents. -/
def cubic' : Meadow.Poly :=
  .ofTerms [(.power "x" 3, 1), ((Meadow.Monomial.power "x" 2).mul (.power "y" 1), 1),
    ((Meadow.Monomial.power "x" 1).mul (.power "y" 2), -1), (.power "y" 3, -1)]

theorem represents_cubic : cubic.Represents cubic' := by with_unfolding_all decide

theorem isConstant_cubic : cubic.isConstant = false := by with_unfolding_all decide

/-- The parts of `(x + y) ^ 2 * (x - y)` are `x - y` and, for the multiplicity two, `x + y`, in both
builds. -/
theorem squarefreeParts_decomposes_cubic :
    cubic.Represents cubic' ∧ cubic'.content "x" = 1 ∧
      Returns (cubic.squarefreeParts "x") [((var "x").sub (var "y"), 1), (line 1, 2)] ∧
      ∃ n ≤ 3, Decomposes "x" cubic n [((var "x").sub (var "y"), 1), (line 1, 2)] := by
  have hcontent : cubic'.content "x" = 1 := by with_unfolding_all decide
  have hparts :
      Returns (cubic.squarefreeParts "x") [((var "x").sub (var "y"), 1), (line 1, 2)] := by
    decide_cbv
  obtain ⟨hrounds, -⟩ := (squarefreeParts_decomposes represents_cubic hcontent).of_returns hparts
  rw [show (cubic.degreeIn "x").toNat = 3 by with_unfolding_all decide] at hrounds
  exact ⟨represents_cubic, hcontent, hparts, hrounds⟩

end Meadow.Stored.Poly
