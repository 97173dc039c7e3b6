import Mathlib
import Meadow.Proofs.Poly.CanonicalFactors

set_option autoImplicit false

/-!
# The rounds of the squarefree decomposition

A decomposition counts its rounds and gives up when a division is not exact or when there
are more rounds than the degree allows.  `Poly.Rounds` describes the rounds without these
exits and without a bound; `Poly.Decomposes` is a decomposition by such rounds.  Every
decomposition of a primitive polynomial is one (`Poly.exists_decomposes`), since a round
lowers the degree of what is still to be found.  What does not depend on the arithmetic is
read off the rounds: each part found has the variable in it, and the multiplicities grow.
-/

namespace Meadow

namespace Poly

/-! ## Rounds without a bound -/

/-- So many rounds lead from `b` and `d`, in the round for the multiplicity `k`, to the parts
from there on: a round divides `b` and `d` exactly by their greatest common divisor, which is
a part unless it is free of the variable. -/
inductive Rounds (w : String) : ℕ → ℕ → Poly → Poly → List (Poly × ℕ) → Prop
  | done {k : ℕ} {b d : Poly} (hb : b.degreeIn w = 0) : Rounds w 0 k b d []
  | round {n k : ℕ} {b d b' c' : Poly} {parts : List (Poly × ℕ)} (hb : b.degreeIn w ≠ 0)
      (hb' : b.divExact? (gcd b d) = some b') (hc' : d.divExact? (gcd b d) = some c')
      (hrest : Rounds w n (k + 1) b' (c'.sub (b'.derivative w)) parts) :
      Rounds w (n + 1) k b d
        ((if (gcd b d).degreeIn w = 0 then [] else [(gcd b d, k)]) ++ parts)

/-- A decomposition in so many rounds: the polynomial and its derivative are divided exactly
by their greatest common divisor, and the rounds start from the quotients. -/
inductive Decomposes (w : String) (p : Poly) : ℕ → List (Poly × ℕ) → Prop
  | rounds {n : ℕ} {b c : Poly} {parts : List (Poly × ℕ)}
      (hb : p.divExact? (gcd p (p.derivative w)) = some b)
      (hc : (p.derivative w).divExact? (gcd p (p.derivative w)) = some c)
      (h : Rounds w n 1 b (c.sub (b.derivative w)) parts) : Decomposes w p n parts

namespace Rounds

variable {w : String} {n k : ℕ} {b d : Poly} {parts : List (Poly × ℕ)}

/-- Every step is determined by the two polynomials. -/
theorem unique {m : ℕ} {parts' : List (Poly × ℕ)} (h : Rounds w n k b d parts)
    (h' : Rounds w m k b d parts') : n = m ∧ parts = parts' := by
  induction h generalizing m parts' with
  | done hb =>
    cases h' with
    | done _ => exact ⟨rfl, rfl⟩
    | round hb' _ _ _ => exact absurd hb hb'
  | round hb hdiv hdiv' _ ih =>
    cases h' with
    | done hb' => exact absurd hb' hb
    | round _ hdivb hdivd hrest =>
      cases hdiv.symm.trans hdivb
      cases hdiv'.symm.trans hdivd
      obtain ⟨rfl, rfl⟩ := ih hrest
      exact ⟨rfl, rfl⟩

/-- A part found has the variable in it, and the multiplicity of its round. -/
theorem mem_found {a : Poly} {part : Poly × ℕ}
    (h : part ∈ if a.degreeIn w = 0 then [] else [(a, k)]) :
    0 < part.1.degreeIn w ∧ part.2 = k := by
  split at h
  · cases h
  · next ha =>
    cases List.mem_singleton.1 h
    exact ⟨Nat.pos_of_ne_zero ha, rfl⟩

theorem degreeIn_pos (h : Rounds w n k b d parts) {part : Poly × ℕ} (hpart : part ∈ parts) :
    0 < part.1.degreeIn w := by
  induction h with
  | done _ => cases hpart
  | round _ _ _ _ ih =>
    rcases List.mem_append.1 hpart with hfound | hrest
    · exact (mem_found hfound).1
    · exact ih hrest

theorem le_multiplicity (h : Rounds w n k b d parts) {part : Poly × ℕ} (hpart : part ∈ parts) :
    k ≤ part.2 := by
  induction h with
  | done _ => cases hpart
  | round _ _ _ _ ih =>
    rcases List.mem_append.1 hpart with hfound | hrest
    · exact (mem_found hfound).2.ge
    · exact (Nat.le_succ _).trans (ih hrest)

/-- The parts are found in increasing order of their multiplicities, one at most for each. -/
theorem pairwise_multiplicity_lt (h : Rounds w n k b d parts) :
    parts.Pairwise fun f g => f.2 < g.2 := by
  induction h with
  | done _ => exact List.Pairwise.nil
  | @round _ k b d _ _ parts _ _ _ hrest ih =>
    refine List.pairwise_append.2 ⟨?_, ih, fun f hf g hg => ?_⟩
    · split
      · exact List.Pairwise.nil
      · exact List.pairwise_singleton _ _
    · rw [(mem_found hf).2]
      exact hrest.le_multiplicity hg

end Rounds

/-! ## Every decomposition -/

section Decomposition

variable {w : String} {p : Poly}

/-- The rounds come to an end by themselves: each of them lowers the degree of what is still
to be found. -/
theorem IsRound.exists_rounds {q b c : Poly} (h : IsRound w q b c) {rounds k : ℕ}
    (hrounds : q.degreeIn w < rounds) :
    ∃ n ≤ q.degreeIn w, Rounds w n k b (c - b.derivative w)
      (squarefreeRounds w rounds k b (c - b.derivative w)) := by
  induction rounds generalizing k q b c with
  | zero => omega
  | succ rounds ih =>
    rw [squarefreeRounds]
    split
    · next hfree => exact ⟨0, Nat.zero_le _, .done hfree⟩
    · next hfree =>
      obtain ⟨b', c', q', hb, hc, hq, hnext⟩ := h.exists_divExact?
      -- the round takes `b` off `q`, and `b` has the variable in it
      have hdegree := degreeIn_mul h.ne_zero hnext.primitive.ne_zero w
      rw [← hq] at hdegree
      obtain ⟨n, hn, hrest⟩ := ih (k := k + 1) hnext (by omega)
      refine ⟨n + 1, by omega, ?_⟩
      dsimp only
      rw [hb, hc]
      exact .round hfree hb hc hrest

theorem exists_decomposes (hp : PrimitiveIn w p) :
    ∃ n ≤ p.degreeIn w, Decomposes w p n (squarefreeParts p w) := by
  obtain ⟨b, c, hb, hc, hround⟩ := exists_divExact?_derivative hp
  obtain ⟨n, hn, hrounds⟩ := hround.exists_rounds (k := 1) (Nat.lt_succ_self _)
  refine ⟨n, hn, .rounds hb hc ?_⟩
  rw [squarefreeParts, hb, hc]
  exact hrounds

theorem Decomposes.unique {n m : ℕ} {parts parts' : List (Poly × ℕ)}
    (h : Decomposes w p n parts) (h' : Decomposes w p m parts') : n = m ∧ parts = parts' := by
  cases h with
  | rounds hb hc h =>
    cases h' with
    | rounds hb' hc' h' =>
      cases hb.symm.trans hb'
      cases hc.symm.trans hc'
      exact h.unique h'

/-- A polynomial of content one over a variable is decomposed without any exit, in no more
rounds than its degree.  The parts have the variable in them, are squarefree and coprime to
one another, and have increasing multiplicities; their powers multiply to the polynomial, up
to a rational factor. -/
theorem squarefreeParts_decomposition (hcontent : p.content w = 1) :
    (∃ n ≤ p.degreeIn w, ∀ m parts,
      Decomposes w p m parts ↔ m = n ∧ parts = squarefreeParts p w) ∧
    (∀ part ∈ squarefreeParts p w, 0 < part.1.degreeIn w ∧ Squarefree part.1) ∧
    ((squarefreeParts p w).Pairwise fun f g => IsRelPrime f.1 g.1) ∧
    ((squarefreeParts p w).Pairwise fun f g => f.2 < g.2) ∧
    ∃ c : ℚ, c ≠ 0 ∧ p = (Factorization.product (squarefreeParts p w)).scale c := by
  have hp : p ≠ 0 := by
    rintro rfl
    exact zero_ne_one hcontent
  have hprimitive : PrimitiveIn w p :=
    primitiveIn_of_content hp (isConstant_iff.2 ⟨1, hcontent⟩)
  have hsquarefree := squarefree_prod_squarefreeParts hprimitive
  obtain ⟨n, hn, hdecomposes⟩ := exists_decomposes hprimitive
  refine ⟨⟨n, hn, fun m parts => ⟨fun h => h.unique hdecomposes, ?_⟩⟩, fun part hpart => ⟨?_, ?_⟩,
    List.pairwise_map.1 (pairwise_isRelPrime_of_squarefree hsquarefree), ?_, ?_⟩
  · rintro ⟨rfl, rfl⟩
    exact hdecomposes
  · cases hdecomposes with
    | rounds _ _ h => exact h.degreeIn_pos hpart
  · exact hsquarefree.squarefree_of_dvd (List.dvd_prod (List.mem_map_of_mem hpart))
  · cases hdecomposes with
    | rounds _ _ h => exact h.pairwise_multiplicity_lt
  · obtain ⟨u, hu⟩ := associated_squarefreeParts hprimitive
    obtain ⟨c, hc⟩ := isConstant_iff.1 (isUnit_iff.1 u.isUnit).1
    refine ⟨c, fun h0 => u.ne_zero (by rw [hc, h0, constant_zero]), ?_⟩
    rw [Factorization.product_eq_prod, scale_eq_mul, mul_comm, ← hc, hu]

end Decomposition

end Poly
end Meadow
