import Meadow.FinSupp.Basic

set_option autoImplicit false

/-!
# Finite sets

A finite set of an ordered type is the finitely supported function that is true at
its members, so its members are listed in increasing order and without repetition.
-/

namespace Meadow

/-- A finite set of keys. -/
abbrev FinSet (K : Type) (cmp : K → K → Ordering) := FinSupp K Bool cmp false

namespace FinSet

variable {K : Type} {cmp : K → K → Ordering} [Std.TransCmp cmp] [Std.LawfulEqCmp cmp]

/-- Is `k` a member? -/
def contains [DecidableEq K] (s : FinSet K cmp) (k : K) : Bool := s.get k

/-- The members in increasing order. -/
def toList (s : FinSet K cmp) : List K := s.keys

def union (s t : FinSet K cmp) : FinSet K cmp := s.merge or t

def insert (k : K) (s : FinSet K cmp) : FinSet K cmp := union (.single k true) s

/-- Add every member of a list. -/
def insertAll (ks : List K) (s : FinSet K cmp) : FinSet K cmp :=
  ks.foldr (fun k s => insert k s) s

/-- The set of the members of a list. -/
def ofList (ks : List K) : FinSet K cmp := insertAll ks .empty

/-! ## Members of the results -/

variable [DecidableEq K]

/-- Sets with the same members are equal. -/
theorem ext_contains {s t : FinSet K cmp} (h : ∀ k, s.contains k = true ↔ t.contains k = true) :
    s = t :=
  FinSupp.ext_get fun k => Bool.eq_iff_iff.2 (h k)

@[simp] theorem contains_union (s t : FinSet K cmp) (k : K) :
    (union s t).contains k = (s.contains k || t.contains k) :=
  FinSupp.get_merge Bool.false_or Bool.or_false s t k

@[simp] theorem contains_insert (s : FinSet K cmp) (k l : K) :
    (insert k s).contains l = (decide (k = l) || s.contains l) := by
  rw [insert, contains_union, contains, FinSupp.get_single]
  by_cases h : k = l <;> simp [h]

theorem contains_insertAll (ks : List K) (s : FinSet K cmp) (l : K) :
    (insertAll ks s).contains l = (decide (l ∈ ks) || s.contains l) := by
  induction ks with
  | nil => simp [insertAll]
  | cons k ks ih =>
    have step : insertAll (k :: ks) s = insert k (insertAll ks s) := rfl
    rw [step, contains_insert, ih]
    by_cases h : k = l
    · simp [h]
    · have h' : l ≠ k := fun e => h e.symm
      simp [h, h']

theorem contains_ofList {ks : List K} {k : K} :
    (ofList ks : FinSet K cmp).contains k = true ↔ k ∈ ks := by
  rw [ofList, contains_insertAll, Bool.or_eq_true, decide_eq_true_eq]
  exact or_iff_left Bool.false_ne_true

omit [Std.LawfulEqCmp cmp] in
/-- The listed members are those that the set contains. -/
theorem mem_toList_iff {s : FinSet K cmp} {k : K} : k ∈ s.toList ↔ s.contains k = true := by
  rw [toList, FinSupp.mem_keys_iff]
  simp [contains]

end FinSet
end Meadow
