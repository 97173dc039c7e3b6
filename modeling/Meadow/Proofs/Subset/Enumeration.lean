import Mathlib
import Meadow.Proofs.Subset

set_option autoImplicit false

/-!
# The subsets of one size, one after the other

Going on by `next?` from the first subset of a size, for as long as there is a next one, visits
every subset of this size once and in lexicographic order, and so as many as the binomial
coefficient tells (`Subset.enumeration_exhaustive`).

In an array, a subset is overwritten by the next one.  This is written out with places that may
be out of range and numbers that may go below zero or beyond a machine word (`Subset.advance?`);
none of this happens, and the array then holds what `next?` returns (`Subset.advance?_eq`).
-/

namespace Meadow

namespace Subset

variable {n low k words : ℕ} {s s' t : List ℕ} {visited visited' : List (List ℕ)}

/-! ## The order of the visits -/

theorem Visits.unique (h : Visits n s visited) (h' : Visits n s visited') :
    visited' = visited := by
  induction h generalizing visited' with
  | last hlast =>
    cases h' with
    | last _ => rfl
    | step hnext _ =>
      rw [hlast] at hnext
      cases hnext
  | step hnext _ ih =>
    cases h' with
    | last hlast =>
      rw [hnext] at hlast
      cases hlast
    | step hnext' hrest' =>
      rw [hnext, Option.some_inj] at hnext'
      subst hnext'
      rw [ih hrest']

/-- Each visited one is below those that follow it. -/
theorem Visits.pairwise_lt (h : Visits n s visited) (hs : Ascending n low s) :
    visited.Pairwise (· < ·) := by
  induction h with
  | last _ => exact List.pairwise_singleton _ _
  | step hnext hrest ih =>
    obtain ⟨hs', -, hlt', -⟩ := next?_eq_some hs hnext
    refine List.pairwise_cons.2 ⟨fun t ht => ?_, ih hs'⟩
    obtain ⟨-, -, rfl | hlt⟩ := (hrest.mem_iff hs').1 ht
    · exact hlt'
    · exact List.lt_trans hlt' hlt

/-! ## How many there are -/

theorem ascending_iff :
    Ascending n low s ↔ s.Pairwise (· < ·) ∧ ∀ i ∈ s, low ≤ i ∧ i < n := by
  induction s generalizing low with
  | nil => exact iff_of_true trivial ⟨List.Pairwise.nil, fun _ h => nomatch h⟩
  | cons i is ih =>
    rw [Ascending, ih, List.pairwise_cons, List.forall_mem_cons]
    constructor
    · rintro ⟨hle, hi, hpairwise, hbounds⟩
      exact ⟨⟨fun j hj => (hbounds j hj).1, hpairwise⟩, ⟨hle, hi⟩, fun j hj =>
        ⟨hle.trans (Nat.le_of_succ_le (hbounds j hj).1), (hbounds j hj).2⟩⟩
    · rintro ⟨⟨hlt, hpairwise⟩, ⟨hle, hi⟩, hbounds⟩
      exact ⟨hle, hi, hpairwise, fun j hj => ⟨hlt j hj, (hbounds j hj).2⟩⟩

/-- The subsets of the numbers below `n` are the sublists of these numbers. -/
theorem ascending_iff_sublist_range : Ascending n 0 s ↔ s.Sublist (List.range n) := by
  rw [ascending_iff]
  constructor
  · rintro ⟨hpairwise, hbounds⟩
    have hmem : s ⊆ List.range n := fun i hi => List.mem_range.2 (hbounds i hi).2
    exact List.sublist_of_subperm_of_pairwise
      (List.subperm_of_subset (hpairwise.imp Nat.ne_of_lt) hmem) hpairwise List.pairwise_lt_range
  · intro h
    exact ⟨List.pairwise_lt_range.sublist h, fun i hi =>
      ⟨Nat.zero_le i, List.mem_range.1 (h.subset hi)⟩⟩

theorem Visits.length_eq (h : Visits n (first k) visited) (hk : k ≤ n) :
    visited.length = n.choose k := by
  have hnodup : visited.Nodup := (h.pairwise_lt (ascending_first hk)).imp ne_of_lt
  have hperm : visited.Perm (List.sublistsLen k (List.range n)) := by
    refine (List.perm_ext_iff_of_nodup hnodup (List.nodup_sublistsLen k List.nodup_range)).2 ?_
    intro t
    rw [h.mem_iff_of_first hk, List.mem_sublistsLen, ascending_iff_sublist_range]
  rw [hperm.length_eq, List.length_sublistsLen, List.length_range]

/-! ## In place -/

/-- The sum, if it is below `words` and so fits a machine word. -/
def sum? (words a b : ℕ) : Option ℕ := if a + b < words then some (a + b) else none

/-- Write at a place of a list, if it is in range. -/
def write? (s : List ℕ) (i a : ℕ) : Option (List ℕ) :=
  if i < s.length then some (s.set i a) else none

/-- From place `j` on, let `count` members follow the one in front of them as closely as they
can. -/
def follow? (words : ℕ) (s : List ℕ) (j : ℕ) : ℕ → Option (List ℕ)
  | 0 => some s
  | count + 1 => do
    let before ← s[← j.psub 1]?
    let s ← write? s j (← sum? words before 1)
    follow? words s (j + 1) count

/-- Among the first `i` members, from the last of them to the first, look for one that can grow;
let it grow and those behind it follow.  Tell whether there is one. -/
def advanceBefore? (words n : ℕ) (s : List ℕ) : ℕ → Option (Bool × List ℕ)
  | 0 => some (false, s)
  | i + 1 => do
    let member ← s[i]?
    let ceiling ← sum? words (← n.psub s.length) i
    if member < ceiling then
      let s ← write? s i (← sum? words member 1)
      return (true, ← follow? words s (i + 1) (s.length - (i + 1)))
    else advanceBefore? words n s i

/-- Overwrite a subset of the numbers below `n` by the next one and tell whether there is one. -/
def advance? (words n : ℕ) (s : List ℕ) : Option (Bool × List ℕ) :=
  advanceBefore? words n s s.length

theorem next?_append (pre : List ℕ) (h : next? n t = some s') :
    next? n (pre ++ t) = some (pre ++ s') := by
  induction pre with
  | nil => exact h
  | cons i pre ih => rw [List.cons_append, next?, ih, List.cons_append]

theorem next?_cons_of_full {i : ℕ} {is : List ℕ} (h : next? n is = none) : next? n (i :: is) =
    if i + is.length + 1 < n then some (List.range' (i + 1) (is.length + 1)) else none := by
  rw [next?, h]

theorem write?_append (pre behind : List ℕ) (a b : ℕ) :
    write? (pre ++ b :: behind) pre.length a = some (pre ++ a :: behind) := by
  rw [write?, if_pos (by simp), List.set_append_right _ _ (Nat.le_refl _), Nat.sub_self,
    List.set_cons_zero]

/-- The members from the place on become consecutive numbers, by induction on them. -/
theorem follow?_eq (pre behind : List ℕ) (a : ℕ) (h : a + behind.length < words) :
    follow? words (pre ++ a :: behind) (pre.length + 1) behind.length =
      some (pre ++ List.range' a (behind.length + 1)) := by
  induction behind generalizing pre a with
  | nil => rfl
  | cons b behind ih =>
    rw [List.length_cons] at h
    have hsum : sum? words a 1 = some (a + 1) := if_pos (by omega)
    have hwrite := write?_append (pre ++ [a]) behind (a + 1) b
    have hrest := ih (pre ++ [a]) (a + 1) (by omega)
    simp only [List.length_append, List.length_singleton, List.append_assoc,
      List.singleton_append] at hwrite hrest
    have hplace : (pre.length + 1).psub 1 = some pre.length := Nat.psub_eq_sub (Nat.succ_pos _)
    have hbefore : (pre ++ a :: b :: behind)[pre.length]? = some a := by simp
    simp only [List.length_cons, follow?, Option.bind_eq_bind, Option.bind_some, hplace, hbefore,
      hsum, hwrite, hrest]
    rw [← List.range'_succ]

/-- The members behind the place looked at cannot grow, by induction on those before it. -/
theorem advanceBefore?_eq (pre is : List ℕ) (hfull : next? n is = none)
    (hlen : (pre ++ is).length ≤ n) (hn : n < words) :
    advanceBefore? words n (pre ++ is) pre.length =
      some ((next? n (pre ++ is)).elim (false, pre ++ is) fun s' => (true, s')) := by
  induction pre using List.reverseRecOn generalizing is with
  | nil =>
    rw [List.nil_append, hfull]
    rfl
  | append_singleton pre i ih =>
    rw [List.append_assoc, List.singleton_append] at hlen ⊢
    have hlength : (pre ++ i :: is).length = pre.length + is.length + 1 := by simp [Nat.add_assoc]
    have hmember : (pre ++ i :: is)[pre.length]? = some i := by simp
    have hspare := Nat.psub_eq_sub hlen
    have hceiling : sum? words (n - (pre ++ i :: is).length) pre.length =
        some (n - (is.length + 1)) := by
      rw [sum?, if_pos (by omega)]
      congr 1
      omega
    rw [List.length_append, List.length_singleton, advanceBefore?]
    simp only [Option.bind_eq_bind, Option.bind_some, hmember, hspare, hceiling]
    have hnext := next?_cons_of_full (i := i) hfull
    by_cases hroom : i < n - (is.length + 1)
    · rw [if_pos (by omega)] at hnext
      have hsum : sum? words i 1 = some (i + 1) := if_pos (by omega)
      have hcount : (pre ++ (i + 1) :: is).length - (pre.length + 1) = is.length := by
        rw [List.length_append, List.length_cons]
        omega
      rw [if_pos hroom, hsum, Option.bind_some, write?_append, Option.bind_some, hcount,
        follow?_eq pre is (i + 1) (by omega), next?_append pre hnext]
      rfl
    · rw [if_neg (by omega)] at hnext
      rw [if_neg hroom]
      exact ih (i :: is) hnext hlen

/-- Nothing fails in place, and the array then holds the next subset, or is left as it is where
there is none. -/
theorem advance?_eq (hlen : s.length ≤ n) (hn : n < words) :
    advance? words n s = some ((next? n s).elim (false, s) fun s' => (true, s')) := by
  have h := advanceBefore?_eq s [] rfl (by rwa [List.append_nil]) hn
  rwa [List.append_nil] at h

/-- More members than numbers below `n` would let their ceiling go below zero. -/
example : advance? 5 1 [0, 1] = none := by decide

/-! ## The enumeration -/

/-- Going on from the first subset of a size visits each of this size once and in lexicographic
order.  In place no step fails, whatever the number of machine words beyond `n`, and a search
tries the subsets in the order of the visits. -/
theorem enumeration_exhaustive (hk : k ≤ n) :
    (∃! visited, Visits n (first k) visited) ∧ ∀ visited, Visits n (first k) visited →
      (∀ s, s ∈ visited ↔ s.length = k ∧ s.Pairwise (· < ·) ∧ ∀ i ∈ s, i < n) ∧
      visited.Pairwise (· < ·) ∧ visited.Nodup ∧ visited.length = n.choose k ∧
      (∀ words > n, ∀ s ∈ visited,
        advance? words n s = some ((next? n s).elim (false, s) fun s' => (true, s'))) ∧
      ∀ {α : Type} (test : List ℕ → Option α), search? test n k = visited.findSome? test := by
  have hfirst := ascending_first hk
  obtain ⟨all, hall⟩ := exists_visits hfirst
  refine ⟨⟨all, hall, fun _ h => hall.unique h⟩, fun visited h => ?_⟩
  have hordered := h.pairwise_lt hfirst
  refine ⟨fun s => ?_, hordered, hordered.imp ne_of_lt, h.length_eq hk, fun words hn s hs => ?_,
    fun test => h.search?_eq hk⟩
  · rw [h.mem_iff_of_first hk, ascending_iff]
    simp only [Nat.zero_le, true_and]
    exact and_comm
  · obtain ⟨-, hlen⟩ := (h.mem_iff_of_first hk).1 hs
    exact advance?_eq (hlen.trans_le hk) hn

/-- Four numbers have six pairs, and the last is the one of the two largest. -/
theorem enumeration_exhaustive_pairs :
    ∃ visited, Visits 4 (first 2) visited ∧ visited.length = 6 ∧ [2, 3] ∈ visited ∧
      advance? 5 4 [2, 3] = some (false, [2, 3]) := by
  obtain ⟨⟨visited, hvisits, -⟩, h⟩ := enumeration_exhaustive (n := 4) (k := 2) (by decide)
  obtain ⟨hmem, -, -, hlength, hplace, -⟩ := h visited hvisits
  have hlast : [2, 3] ∈ visited := (hmem [2, 3]).2 (by decide)
  exact ⟨visited, hvisits, hlength, hlast, hplace 5 (by decide) [2, 3] hlast⟩

end Subset
end Meadow
