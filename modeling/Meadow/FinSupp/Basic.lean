import Meadow.FinSupp.Entries

set_option autoImplicit false

/-!
# Finitely supported functions

A function from an ordered set of keys that takes the value `zero` at all but
finitely many keys is kept as the sorted list of its other values.  The list is
determined by the function (`FinSupp.ext_get`), so equality of lists is equality
of functions, and every operation is described by the values that it gives.
-/

namespace Meadow

/-- A function from `K` to `V` that is `zero` outside a finite set of keys. -/
structure FinSupp (K V : Type) (cmp : K → K → Ordering) (zero : V) where
  entries : List (K × V)
  sorted : Entries.Sorted cmp entries
  nonzero : Entries.Nonzero zero entries
  deriving DecidableEq

namespace FinSupp

variable {K V : Type} {cmp : K → K → Ordering} {zero : V}

/-- The value at a key. -/
def get [DecidableEq K] (f : FinSupp K V cmp zero) (k : K) : V := Entries.get zero k f.entries

/-- The function that is `zero` everywhere. -/
def empty : FinSupp K V cmp zero := ⟨[], List.Pairwise.nil, fun _ h => nomatch h⟩

instance : Inhabited (FinSupp K V cmp zero) := ⟨empty⟩

/-- The function with one value and `zero` elsewhere. -/
def single [DecidableEq V] (k : K) (v : V) : FinSupp K V cmp zero :=
  if h : v = zero then empty
  else ⟨[(k, v)], List.pairwise_singleton _ _, fun _ he => List.mem_singleton.1 he ▸ h⟩

/-- Is this the function that is `zero` everywhere? -/
def isEmpty (f : FinSupp K V cmp zero) : Bool := f.entries.isEmpty

/-- The keys at which the value is not `zero`, in increasing order. -/
def keys (f : FinSupp K V cmp zero) : List K := f.entries.map Prod.fst

/-- Join the values of two functions at every key. -/
def merge [DecidableEq V] [Std.TransCmp cmp] [Std.LawfulEqCmp cmp] (j : V → V → V)
    (f g : FinSupp K V cmp zero) : FinSupp K V cmp zero where
  entries := Entries.merge cmp zero j f.entries g.entries
  sorted := Entries.sorted_merge f.sorted g.sorted
  nonzero := Entries.nonzero_merge f.nonzero g.nonzero

/-- Replace every value by `h` of its key and itself. -/
def mapVals [DecidableEq V] (h : K → V → V) (f : FinSupp K V cmp zero) :
    FinSupp K V cmp zero where
  entries := Entries.mapVals zero h f.entries
  sorted := Entries.sorted_mapVals f.sorted
  nonzero := Entries.nonzero_mapVals f.entries

/-- Move every key by an order-preserving map. -/
def mapKeys (h : K → K) (mono : ∀ k l, cmp k l = .lt → cmp (h k) (h l) = .lt)
    (f : FinSupp K V cmp zero) : FinSupp K V cmp zero where
  entries := f.entries.map fun e => (h e.1, e.2)
  sorted := List.pairwise_map.2 (f.sorted.imp fun hab => mono _ _ hab)
  nonzero := fun _ he => by
    obtain ⟨a, ha, rfl⟩ := List.mem_map.1 he
    exact f.nonzero a ha

/-- Keep the entries at the keys that `p` accepts. -/
def filter (p : K → Bool) (f : FinSupp K V cmp zero) : FinSupp K V cmp zero where
  entries := f.entries.filter fun e => p e.1
  sorted := List.Pairwise.filter _ f.sorted
  nonzero := fun e he => f.nonzero e (List.mem_filter.1 he).1

/-! ## The values of the results -/

section Values

variable [DecidableEq K]

/-- Two functions with the same values are equal. -/
theorem ext_get [Std.TransCmp cmp] [Std.LawfulEqCmp cmp] {f g : FinSupp K V cmp zero}
    (h : ∀ k, f.get k = g.get k) : f = g := by
  obtain ⟨as, has, nas⟩ := f
  obtain ⟨bs, hbs, nbs⟩ := g
  cases Entries.ext_get has hbs nas nbs h
  rfl

/-- The entries are the keys with a value other than `zero`. -/
theorem mem_entries_iff [Std.TransCmp cmp] {f : FinSupp K V cmp zero} {k : K} {v : V} :
    (k, v) ∈ f.entries ↔ f.get k = v ∧ v ≠ zero := by
  constructor
  · intro h
    exact ⟨Entries.get_of_mem f.sorted h, f.nonzero _ h⟩
  · rintro ⟨rfl, hv⟩
    exact Entries.mem_of_get_ne_zero hv

/-- Two functions with the same entries are equal. -/
theorem ext_mem [Std.TransCmp cmp] [Std.LawfulEqCmp cmp] {f g : FinSupp K V cmp zero}
    (h : ∀ e, e ∈ f.entries ↔ e ∈ g.entries) : f = g := by
  refine ext_get fun k => ?_
  by_cases hf : f.get k = zero
  · by_cases hg : g.get k = zero
    · rw [hf, hg]
    · exact (mem_entries_iff.1 ((h _).2 (mem_entries_iff.2 ⟨rfl, hg⟩))).1
  · exact (mem_entries_iff.1 ((h _).1 (mem_entries_iff.2 ⟨rfl, hf⟩))).1.symm

theorem mem_keys_iff [Std.TransCmp cmp] {f : FinSupp K V cmp zero} {k : K} :
    k ∈ f.keys ↔ f.get k ≠ zero := by
  simp only [keys, List.mem_map]
  constructor
  · rintro ⟨⟨l, v⟩, he, rfl⟩
    obtain ⟨h, hv⟩ := mem_entries_iff.1 he
    exact h ▸ hv
  · intro h
    exact ⟨(k, f.get k), mem_entries_iff.2 ⟨rfl, h⟩, rfl⟩

@[simp] theorem get_empty (k : K) : (empty : FinSupp K V cmp zero).get k = zero := rfl

@[simp] theorem get_single [DecidableEq V] (k l : K) (v : V) :
    (single k v : FinSupp K V cmp zero).get l = if k = l then v else zero := by
  unfold single
  split
  · next h => simp [h]
  · rfl

theorem get_merge [DecidableEq V] [Std.TransCmp cmp] [Std.LawfulEqCmp cmp] {j : V → V → V}
    (hl : ∀ v, j zero v = v) (hr : ∀ v, j v zero = v) (f g : FinSupp K V cmp zero) (k : K) :
    (f.merge j g).get k = j (f.get k) (g.get k) :=
  Entries.get_merge hl hr f.sorted g.sorted k

theorem get_mapVals [DecidableEq V] [Std.TransCmp cmp] {h : K → V → V}
    (f : FinSupp K V cmp zero) {k : K} (hz : h k zero = zero) :
    (f.mapVals h).get k = h k (f.get k) :=
  Entries.get_mapVals f.sorted hz

/-- An injective map of keys carries the values along. -/
theorem get_mapKeys {h : K → K} (mono : ∀ k l, cmp k l = .lt → cmp (h k) (h l) = .lt)
    (inj : ∀ k l, h k = h l → k = l) (f : FinSupp K V cmp zero) (k : K) :
    (f.mapKeys h mono).get (h k) = f.get k := by
  simp only [get, mapKeys]
  induction f.entries with
  | nil => rfl
  | cons e es ih =>
    simp only [List.map_cons, Entries.get, ih]
    by_cases he : e.1 = k
    · simp [he]
    · have hne : h e.1 ≠ h k := fun hh => he (inj _ _ hh)
      simp [he, hne]

/-- A key outside the image of the map has the value `zero`. -/
theorem get_mapKeys_of_notMem {h : K → K}
    (mono : ∀ k l, cmp k l = .lt → cmp (h k) (h l) = .lt) (f : FinSupp K V cmp zero) {l : K}
    (hl : ∀ k, h k ≠ l) : (f.mapKeys h mono).get l = zero := by
  refine Entries.get_eq_zero fun e he => ?_
  obtain ⟨a, -, rfl⟩ := List.mem_map.1 he
  exact hl a.1

theorem get_filter [Std.TransCmp cmp] (p : K → Bool) (f : FinSupp K V cmp zero) (k : K) :
    (f.filter p).get k = if p k then f.get k else zero := by
  split
  · next hp =>
    by_cases hz : f.get k = zero
    · rw [hz]
      refine Entries.get_eq_zero fun e he hk => ?_
      have hm := (List.mem_filter.1 he).1
      obtain ⟨h, hne⟩ := mem_entries_iff.1 hm
      exact hne (h.symm.trans (hk ▸ hz))
    · exact (mem_entries_iff.1 (List.mem_filter.2 ⟨mem_entries_iff.2 ⟨rfl, hz⟩, hp⟩ :
        (k, f.get k) ∈ (f.filter p).entries)).1
  · next hp =>
    refine Entries.get_eq_zero fun e he hk => hp ?_
    exact hk ▸ (List.mem_filter.1 he).2

end Values

end FinSupp
end Meadow
