import Mathlib

set_option autoImplicit false

/-!
# Steps that may fail

What is known of a sequence of steps, each of which may fail, from what came of it: a
sequence that succeeds has steps that all succeed, and keeps what each of them keeps; one
that fails does so at one of its steps.
-/

namespace Meadow

variable {ε α β σ : Type}

theorem exists_of_bind_eq_ok {x : Except ε α} {f : α → Except ε β} {b : β}
    (h : x >>= f = .ok b) : ∃ a, x = .ok a ∧ f a = .ok b := by
  cases x with
  | error e => cases h
  | ok a => exact ⟨a, rfl, h⟩

theorem error_or_exists_of_bind {x : Except ε α} {f : α → Except ε β} {e : ε}
    (h : x >>= f = .error e) : x = .error e ∨ ∃ a, x = .ok a ∧ f a = .error e := by
  cases x with
  | error e' =>
    cases h
    exact Or.inl rfl
  | ok a => exact Or.inr ⟨a, rfl, h⟩

section Fold

variable {f : σ → α → Except ε σ} {xs : List α} {s t : σ}

/-- What each step keeps is kept by a run. -/
theorem of_foldlM_eq_ok {P : σ → Prop} (hf : ∀ s x t, P s → f s x = .ok t → P t)
    (h : xs.foldlM f s = .ok t) (hs : P s) : P t := by
  induction xs generalizing s with
  | nil =>
    cases h
    exact hs
  | cons x xs ih =>
    rw [List.foldlM_cons] at h
    obtain ⟨s', hstep, hrest⟩ := exists_of_bind_eq_ok h
    exact ih hrest (hf s x s' hs hstep)

/-- A run that fails does so at one of its steps. -/
theorem exists_of_foldlM_eq_error {e : ε} (h : xs.foldlM f s = .error e) :
    ∃ ys x zs s', xs = ys ++ x :: zs ∧ ys.foldlM f s = .ok s' ∧ f s' x = .error e := by
  induction xs generalizing s with
  | nil => cases h
  | cons x xs ih =>
    rw [List.foldlM_cons] at h
    rcases error_or_exists_of_bind h with hstep | ⟨s₁, hstep, hrest⟩
    · exact ⟨[], x, xs, s, rfl, rfl, hstep⟩
    · obtain ⟨ys, y, zs, s', rfl, hys, hy⟩ := ih hrest
      refine ⟨x :: ys, y, zs, s', rfl, ?_, hy⟩
      rw [List.foldlM_cons, hstep]
      exact hys

end Fold

end Meadow
