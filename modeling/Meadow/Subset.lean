set_option autoImplicit false

/-!
# Subsets of a given size

A subset of the numbers below `n` is the increasing list of its members.  Those
of one size are visited in lexicographic order: `first k` is the first, and
`next? n` leads from each to the next one, until there is none.
-/

namespace Meadow.Subset

/-- The lexicographically first subset of size `k`. -/
def first (k : Nat) : List Nat := List.range k

/-- The lexicographically next subset of the same size of the numbers below `n`:
the last member that can grow does so, and those behind it follow as closely as
they can. -/
def next? (n : Nat) : List Nat → Option (List Nat)
  | [] => none
  | i :: is =>
    match next? n is with
    | some js => some (i :: js)
    | none => if i + is.length + 1 < n then some (List.range' (i + 1) (is.length + 1)) else none

/-- The first success of a test among a subset and those that follow it. -/
def searchFrom? {α : Type} (test : List Nat → Option α) (n : Nat) : Nat → List Nat → Option α
  | 0, _ => none
  | visits + 1, s =>
    match test s with
    | some a => some a
    | none =>
      match next? n s with
      | some s' => searchFrom? test n visits s'
      | none => none

/-- The first success of a test among the subsets of size `k` of the numbers below
`n`; these numbers have `2 ^ n` subsets in all. -/
def search? {α : Type} (test : List Nat → Option α) (n k : Nat) : Option α :=
  searchFrom? test n (Nat.pow 2 n) (first k)

/-- The members of a list at the places in a subset. -/
def select {α : Type} (xs : List α) (s : List Nat) : List α := s.filterMap (xs[·]?)

/-- The members of a list at the places outside a subset. -/
def remove {α : Type} (xs : List α) (s : List Nat) : List α :=
  (xs.zipIdx.filter fun x => !s.contains x.2).map Prod.fst

end Meadow.Subset
