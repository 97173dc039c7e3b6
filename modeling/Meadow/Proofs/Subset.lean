import Mathlib
import Meadow.Subset

set_option autoImplicit false

/-!
# Searches over subsets

A subset is an increasing list of numbers below `n` (`Subset.Ascending`).  `next?` leads to
the next one in lexicographic order, so going on from the first of a size visits all subsets of
this size (`Subset.Visits.mem_iff_of_first`).  Each step lowers the binary number whose digits,
the highest first, mark the members, so a search has enough visits for all of them
(`Subset.Visits.search?_eq`), and where it fails, the test fails at all of them
(`Subset.eq_none_of_search?_eq_none`).

The members of a list at the places of a subset and those outside make up the list
(`Subset.perm_select_append_remove`), and every sublist stands at the places of a subset
(`Subset.exists_select_of_sublist`).
-/

namespace Meadow

namespace Subset

variable {α : Type} {n low k : ℕ} {s s' t : List ℕ} {visited : List (List ℕ)}

/-! ## Subsets as increasing lists -/

/-- Increasing numbers from `low` on and below `n`. -/
def Ascending (n : ℕ) : ℕ → List ℕ → Prop
  | _, [] => True
  | low, i :: is => low ≤ i ∧ i < n ∧ Ascending n (i + 1) is

theorem Ascending.mono (h : Ascending n low s) {low' : ℕ} (hle : low' ≤ low) :
    Ascending n low' s := by
  cases s with
  | nil => trivial
  | cons i is => exact ⟨hle.trans h.1, h.2⟩

theorem Ascending.add_length_le (h : Ascending n low s) (hlow : low ≤ n) :
    low + s.length ≤ n := by
  induction s generalizing low with
  | nil => exact hlow
  | cons i is ih =>
    obtain ⟨hle, hlt, his⟩ := h
    have hrest := ih his hlt
    rw [List.length_cons]
    omega

theorem ascending_range' (h : low + k ≤ n) : Ascending n low (List.range' low k) := by
  induction k generalizing low with
  | zero => trivial
  | succ k ih => exact ⟨le_rfl, by omega, ih (by omega)⟩

/-- Consecutive numbers come first among the subsets of one size. -/
theorem range'_eq_or_lt (h : Ascending n low s) :
    List.range' low s.length = s ∨ List.range' low s.length < s := by
  induction s generalizing low with
  | nil => exact Or.inl rfl
  | cons i is ih =>
    obtain ⟨hle, hlt, his⟩ := h
    rw [List.length_cons, List.range'_succ, List.cons_lt_cons_iff]
    rcases Nat.eq_or_lt_of_le hle with rfl | hlow
    · rcases ih his with heq | hrest
      · exact Or.inl (by rw [heq])
      · exact Or.inr (Or.inr ⟨rfl, hrest⟩)
    · exact Or.inr (Or.inl hlow)

/-! ## The next subset -/

theorem not_lt_of_next?_eq_none (hs : Ascending n low s) (h : next? n s = none)
    (ht : Ascending n low t) (hlen : t.length = s.length) : ¬ s < t := by
  induction s generalizing low t with
  | nil =>
    rw [List.length_nil, List.length_eq_zero_iff] at hlen
    rw [hlen]
    exact List.not_lt_nil []
  | cons i is ih =>
    obtain ⟨-, hi, his⟩ := hs
    cases t with
    | nil => cases hlen
    | cons j js =>
      obtain ⟨-, hj, hjs⟩ := ht
      rw [List.length_cons, List.length_cons, Nat.succ_inj] at hlen
      have hroom := hjs.add_length_le hj
      unfold next? at h
      split at h
      · cases h
      · next hnext =>
        split at h
        · cases h
        · next hfull =>
          rw [List.cons_lt_cons_iff]
          intro hlt
          rcases hlt with hlt | ⟨rfl, hlt⟩
          · omega
          · exact ih his hnext hjs hlen hlt

/-- The next subset is the least one above. -/
theorem next?_eq_some (hs : Ascending n low s) (h : next? n s = some s') :
    Ascending n low s' ∧ s'.length = s.length ∧ s < s' ∧
      ∀ t, Ascending n low t → t.length = s.length → s < t → s' = t ∨ s' < t := by
  induction s generalizing low s' with
  | nil => cases h
  | cons i is ih =>
    obtain ⟨hlow, hi, his⟩ := hs
    unfold next? at h
    split at h
    · next js hjs =>
      cases h
      obtain ⟨hascending, hlen, hlt, hleast⟩ := ih his hjs
      refine ⟨⟨hlow, hi, hascending⟩, by rw [List.length_cons, hlen, List.length_cons], ?_, ?_⟩
      · exact List.cons_lt_cons_iff.2 (Or.inr ⟨rfl, hlt⟩)
      · intro t ht htlen htlt
        cases t with
        | nil => cases htlen
        | cons j us =>
          rw [List.cons_lt_cons_iff] at htlt ⊢
          rcases htlt with htlt | ⟨rfl, htlt⟩
          · exact Or.inr (Or.inl htlt)
          · rcases hleast us ht.2.2 (Nat.succ_inj.1 htlen) htlt with rfl | hus
            · exact Or.inl rfl
            · exact Or.inr (Or.inr ⟨rfl, hus⟩)
    · next hnext =>
      split at h
      · next hroom =>
        cases h
        refine ⟨(ascending_range' (by omega)).mono (by omega), ?_, ?_, ?_⟩
        · rw [List.length_range', List.length_cons]
        · rw [List.range'_succ, List.cons_lt_cons_iff]
          exact Or.inl (Nat.lt_succ_self i)
        · intro t ht htlen htlt
          cases t with
          | nil => cases htlen
          | cons j us =>
            obtain ⟨-, hj, hus⟩ := ht
            rw [List.cons_lt_cons_iff] at htlt
            rcases htlt with htlt | ⟨rfl, htlt⟩
            · have hfirst := range'_eq_or_lt (s := j :: us) ⟨htlt, hj, hus⟩
              rwa [htlen, List.length_cons] at hfirst
            · exact absurd htlt
                (not_lt_of_next?_eq_none his hnext hus (Nat.succ_inj.1 htlen))
      · cases h

/-! ## Enough visits -/

/-- The number whose binary digits, the highest first, mark the members. -/
def rank (n : ℕ) : List ℕ → ℕ
  | [] => 0
  | i :: is => 2 ^ (n - 1 - i) + rank n is

theorem rank_lt (h : Ascending n low s) (hlow : low ≤ n) : rank n s < 2 ^ (n - low) := by
  induction s generalizing low with
  | nil => exact Nat.two_pow_pos _
  | cons i is ih =>
    obtain ⟨hle, hi, his⟩ := h
    have hrest := ih his hi
    have hhalf : n - (i + 1) = n - 1 - i := by omega
    have hdouble : 2 ^ (n - i) = 2 * 2 ^ (n - 1 - i) := by
      rw [← Nat.pow_succ']
      congr 1
      omega
    have hmono : 2 ^ (n - i) ≤ 2 ^ (n - low) := Nat.pow_le_pow_right (by omega) (by omega)
    rw [hhalf] at hrest
    rw [rank]
    omega

theorem rank_next?_lt (hs : Ascending n low s) (h : next? n s = some s') :
    rank n s' < rank n s := by
  induction s generalizing low s' with
  | nil => cases h
  | cons i is ih =>
    obtain ⟨hlow, hi, his⟩ := hs
    unfold next? at h
    split at h
    · next js hjs =>
      cases h
      exact Nat.add_lt_add_left (ih his hjs) _
    · split at h
      · next hroom =>
        cases h
        have hascending : Ascending n (i + 1) (List.range' (i + 1) (is.length + 1)) :=
          ascending_range' (by omega)
        have hlt := rank_lt hascending hi
        have hhalf : n - (i + 1) = n - 1 - i := by omega
        rw [hhalf] at hlt
        exact hlt.trans_le (Nat.le_add_right _ _)
      · cases h

/-! ## Visits -/

/-- The subsets visited from one on: itself and, if there is a next one, those visited from the
next one on. -/
inductive Visits (n : ℕ) : List ℕ → List (List ℕ) → Prop
  | last {s : List ℕ} (h : next? n s = none) : Visits n s [s]
  | step {s s' : List ℕ} {visited : List (List ℕ)} (h : next? n s = some s')
      (hrest : Visits n s' visited) : Visits n s (s :: visited)

/-- The visits come to an end, by induction on the number that each step lowers. -/
theorem exists_visits (hs : Ascending n low s) : ∃ visited, Visits n s visited := by
  induction hrank : rank n s using Nat.strong_induction_on generalizing s with
  | _ r ih =>
    subst hrank
    cases hnext : next? n s with
    | none => exact ⟨[s], .last hnext⟩
    | some s' =>
      obtain ⟨hs', -⟩ := next?_eq_some hs hnext
      obtain ⟨visited, hrest⟩ := ih _ (rank_next?_lt hs hnext) hs' rfl
      exact ⟨s :: visited, .step hnext hrest⟩

/-- The visited ones are those from the first on. -/
theorem Visits.mem_iff (h : Visits n s visited) (hs : Ascending n low s) :
    t ∈ visited ↔ Ascending n low t ∧ t.length = s.length ∧ (s = t ∨ s < t) := by
  induction h with
  | last hlast =>
    rw [List.mem_singleton]
    constructor
    · rintro rfl
      exact ⟨hs, rfl, Or.inl rfl⟩
    · rintro ⟨ht, hlen, rfl | hlt⟩
      · rfl
      · exact absurd hlt (not_lt_of_next?_eq_none hs hlast ht hlen)
  | step hnext _ ih =>
    obtain ⟨hs', hlen', hlt', hleast⟩ := next?_eq_some hs hnext
    rw [List.mem_cons, ih hs']
    constructor
    · rintro (rfl | ⟨ht, hlen, heq | hlt⟩)
      · exact ⟨hs, rfl, Or.inl rfl⟩
      · exact ⟨ht, hlen.trans hlen', Or.inr (heq ▸ hlt')⟩
      · exact ⟨ht, hlen.trans hlen', Or.inr (List.lt_trans hlt' hlt)⟩
    · rintro ⟨ht, hlen, rfl | hlt⟩
      · exact Or.inl rfl
      · exact Or.inr ⟨ht, hlen.trans hlen'.symm, hleast t ht hlen hlt⟩

/-- There are no more visits than numbers up to the one that each step lowers. -/
theorem Visits.length_le (h : Visits n s visited) (hs : Ascending n low s) :
    visited.length ≤ rank n s + 1 := by
  induction h with
  | last _ => exact Nat.le_add_left 1 _
  | step hnext _ ih =>
    have hrest := ih (next?_eq_some hs hnext).1
    have hlt := rank_next?_lt hs hnext
    rw [List.length_cons]
    omega

theorem ascending_first (hk : k ≤ n) : Ascending n 0 (first k) := by
  rw [first, List.range_eq_range']
  exact ascending_range' (by omega)

/-- From the first subset of its size on, all of this size are visited. -/
theorem Visits.mem_iff_of_first (h : Visits n (first k) visited) (hk : k ≤ n) :
    t ∈ visited ↔ Ascending n 0 t ∧ t.length = k := by
  rw [h.mem_iff (ascending_first hk), first, List.length_range]
  refine and_congr_right fun ht => and_iff_left_of_imp ?_
  rintro rfl
  rw [List.range_eq_range']
  exact range'_eq_or_lt ht

/-! ## Searches -/

/-- A search with visits enough tries the visited ones in their order. -/
theorem Visits.searchFrom?_eq {test : List ℕ → Option α} (h : Visits n s visited)
    {visits : ℕ} (hvisits : visited.length ≤ visits) :
    searchFrom? test n visits s = visited.findSome? test := by
  induction h generalizing visits with
  | last hlast =>
    obtain ⟨visits, rfl⟩ := Nat.exists_eq_add_one_of_ne_zero (Nat.ne_of_gt hvisits)
    rw [searchFrom?, hlast, List.findSome?_cons]
    cases test _ <;> rfl
  | step hnext _ ih =>
    rw [List.length_cons] at hvisits
    obtain ⟨visits, rfl⟩ := Nat.exists_eq_add_one_of_ne_zero (Nat.ne_zero_of_lt hvisits)
    rw [searchFrom?, hnext, List.findSome?_cons, ← ih (Nat.le_of_succ_le_succ hvisits)]
    cases test _ <;> rfl

/-- The number of visits that a search allows for is enough for all subsets of a size. -/
theorem Visits.search?_eq {test : List ℕ → Option α} (h : Visits n (first k) visited)
    (hk : k ≤ n) : search? test n k = visited.findSome? test := by
  have hfirst := ascending_first hk
  exact h.searchFrom?_eq ((h.length_le hfirst).trans (rank_lt hfirst (Nat.zero_le n)))

theorem exists_of_searchFrom?_eq_some {test : List ℕ → Option α} {a : α} {visits : ℕ}
    (h : searchFrom? test n visits s = some a) : ∃ s, test s = some a := by
  induction visits generalizing s with
  | zero => cases h
  | succ visits ih =>
    unfold searchFrom? at h
    split at h
    · next htest => exact ⟨s, htest.trans h⟩
    · split at h
      · exact ih h
      · cases h

/-- What a search finds, the test has found. -/
theorem exists_of_search?_eq_some {test : List ℕ → Option α} {a : α}
    (h : search? test n k = some a) : ∃ s, test s = some a :=
  exists_of_searchFrom?_eq_some h

/-- What a search finds, the test has found at a subset of the size searched. -/
theorem exists_ascending_of_search?_eq_some {test : List ℕ → Option α} {a : α} (hk : k ≤ n)
    (h : search? test n k = some a) :
    ∃ s, Ascending n 0 s ∧ s.length = k ∧ test s = some a := by
  obtain ⟨visited, hvisits⟩ := exists_visits (ascending_first hk)
  rw [hvisits.search?_eq hk] at h
  obtain ⟨s, hs, htest⟩ := List.exists_of_findSome?_eq_some h
  obtain ⟨hascending, hlen⟩ := (hvisits.mem_iff_of_first hk).1 hs
  exact ⟨s, hascending, hlen, htest⟩

/-- Where a search fails, the test fails at all subsets of the size searched. -/
theorem eq_none_of_search?_eq_none {test : List ℕ → Option α} (hk : k ≤ n)
    (h : search? test n k = none) (ht : Ascending n 0 t) (hlen : t.length = k) :
    test t = none := by
  obtain ⟨visited, hvisits⟩ := exists_visits (ascending_first hk)
  rw [hvisits.search?_eq hk] at h
  exact List.findSome?_eq_none_iff.1 h t ((hvisits.mem_iff_of_first hk).2 ⟨ht, hlen⟩)

/-- What is made of a success does not change the search. -/
theorem search?_map {β : Type} (F : α → β) (test : List ℕ → Option α) (n k : ℕ) :
    search? (fun s => (test s).map F) n k = (search? test n k).map F := by
  have main (visits : ℕ) (s : List ℕ) :
      searchFrom? (fun s => (test s).map F) n visits s = (searchFrom? test n visits s).map F := by
    induction visits generalizing s with
    | zero => rfl
    | succ visits ih =>
      rw [searchFrom?, searchFrom?]
      cases test s with
      | some a => rfl
      | none =>
        cases next? n s with
        | some s' => exact ih s'
        | none => rfl
  exact main _ _

/-! ## The members at the places of a subset -/

theorem Ascending.exists_map_succ (h : Ascending (n + 1) (low + 1) s) :
    ∃ t, Ascending n low t ∧ s = t.map (· + 1) := by
  induction s generalizing low with
  | nil => exact ⟨[], trivial, rfl⟩
  | cons i is ih =>
    obtain ⟨hle, hi, his⟩ := h
    obtain ⟨j, rfl⟩ := Nat.exists_eq_add_one_of_ne_zero (Nat.ne_of_gt (Nat.lt_of_succ_le hle).pos)
    obtain ⟨t, ht, rfl⟩ := ih his
    exact ⟨j :: t, ⟨by omega, by omega, ht⟩, rfl⟩

/-- The places in a longer list are the first one or not, and others moved on by one. -/
theorem Ascending.exists_tail (h : Ascending (n + 1) 0 s) :
    ∃ t, Ascending n 0 t ∧ (s = t.map (· + 1) ∨ s = 0 :: t.map (· + 1)) := by
  cases s with
  | nil => exact ⟨[], trivial, Or.inl rfl⟩
  | cons i is =>
    obtain ⟨-, hi, his⟩ := h
    cases i with
    | zero =>
      obtain ⟨t, ht, rfl⟩ := his.exists_map_succ
      exact ⟨t, ht, Or.inr rfl⟩
    | succ i =>
      have hascending : Ascending (n + 1) (0 + 1) ((i + 1) :: is) := ⟨by omega, hi, his⟩
      obtain ⟨t, ht, heq⟩ := hascending.exists_map_succ
      exact ⟨t, ht, Or.inl heq⟩

theorem Ascending.map_succ (h : Ascending n low s) :
    Ascending (n + 1) (low + 1) (s.map (· + 1)) := by
  induction s generalizing low with
  | nil => trivial
  | cons i is ih =>
    obtain ⟨hle, hi, his⟩ := h
    exact ⟨Nat.succ_le_succ hle, Nat.succ_lt_succ hi, ih his⟩

theorem select_cons_map_succ (x : α) (xs : List α) (s : List ℕ) :
    select (x :: xs) (s.map (· + 1)) = select xs s := by
  rw [select, List.filterMap_map]
  rfl

theorem select_cons_zero (x : α) (xs : List α) (s : List ℕ) :
    select (x :: xs) (0 :: s) = x :: select (x :: xs) s := rfl

theorem remove_cons (x : α) (xs : List α) (s t : List ℕ)
    (h : ∀ i, s.contains (i + 1) = t.contains i) :
    remove (x :: xs) s = if s.contains 0 then remove xs t else x :: remove xs t := by
  have hrest : ((xs.zipIdx 1).filter fun y => !s.contains y.2).map Prod.fst = remove xs t := by
    rw [List.zipIdx_succ, List.filter_map, List.map_map, remove]
    refine congrArg (List.map Prod.fst) (List.filter_congr fun y _ => ?_)
    exact congrArg not (h y.2)
  rw [remove, List.zipIdx_cons, List.filter_cons]
  split
  · next hkeep =>
    rw [if_neg (by simpa using hkeep), List.map_cons, hrest]
  · next hdrop =>
    rw [if_pos (by simpa using hdrop), hrest]

theorem select_map {β : Type} (f : α → β) (xs : List α) (s : List ℕ) :
    select (xs.map f) s = (select xs s).map f := by
  rw [select, select, List.map_filterMap]
  exact List.filterMap_congr fun i _ => List.getElem?_map

theorem remove_map {β : Type} (f : α → β) (xs : List α) (s : List ℕ) :
    remove (xs.map f) s = (remove xs s).map f := by
  rw [remove, remove, List.zipIdx_map, List.filter_map, List.map_map, List.map_map]
  rfl

/-- The members at the places and those outside make up the list. -/
theorem perm_select_append_remove {xs : List α} (h : Ascending xs.length 0 s) :
    (select xs s ++ remove xs s).Perm xs := by
  induction xs generalizing s with
  | nil =>
    cases s with
    | nil => exact List.Perm.nil
    | cons i is => exact absurd h.2.1 (Nat.not_lt_zero i)
  | cons x xs ih =>
    obtain ⟨t, ht, rfl | rfl⟩ := h.exists_tail
    · rw [select_cons_map_succ, remove_cons x xs _ t (by simp), if_neg (by simp)]
      exact List.perm_middle.trans ((ih ht).cons x)
    · rw [select_cons_zero, select_cons_map_succ, remove_cons x xs _ t (by simp), if_pos (by simp)]
      exact (ih ht).cons x

theorem length_select {xs : List α} (h : Ascending xs.length 0 s) :
    (select xs s).length = s.length := by
  induction xs generalizing s with
  | nil =>
    cases s with
    | nil => rfl
    | cons i is => exact absurd h.2.1 (Nat.not_lt_zero i)
  | cons x xs ih =>
    obtain ⟨t, ht, rfl | rfl⟩ := h.exists_tail
    · rw [select_cons_map_succ, ih ht, List.length_map]
    · rw [select_cons_zero, select_cons_map_succ, List.length_cons, ih ht, List.length_cons,
        List.length_map]

/-- Every sublist stands at the places of a subset. -/
theorem exists_select_of_sublist {xs ys : List α} (h : ys.Sublist xs) :
    ∃ s, Ascending xs.length 0 s ∧ s.length = ys.length ∧ select xs s = ys := by
  induction h with
  | slnil => exact ⟨[], trivial, rfl, rfl⟩
  | cons x _ ih =>
    obtain ⟨s, hs, hlen, hselect⟩ := ih
    refine ⟨s.map (· + 1), hs.map_succ.mono (by omega), by rw [List.length_map, hlen], ?_⟩
    rw [select_cons_map_succ, hselect]
  | cons_cons x _ ih =>
    obtain ⟨s, hs, hlen, hselect⟩ := ih
    refine ⟨0 :: s.map (· + 1), ⟨le_rfl, Nat.succ_pos _, hs.map_succ⟩, ?_, ?_⟩
    · rw [List.length_cons, List.length_map, hlen, List.length_cons]
    · rw [select_cons_zero, select_cons_map_succ, hselect]

end Subset
end Meadow
