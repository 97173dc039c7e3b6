import Mathlib
import Meadow.Proofs.Stored.Statement
import Meadow.Stored.Program

set_option autoImplicit false

/-!
# Running over machine words

All that a run of the program does with stored forms is to prove lines.  So what it writes, and how
it exits, is what is said of the program with exponents of any size, unless an exponent overflows
(`Stored.ensures_run`).
-/

namespace Meadow.Stored

open Machine (Ensures)

/-- The same on each member of a list is the same on the list. -/
theorem ensures_mapM_eq {α β : Type} {f : α → Machine β} {g : α → β} (as : List α)
    (hf : ∀ a, Ensures (f a) (· = g a)) : Ensures (as.mapM f) (· = as.map g) := by
  have hself : List.Forall₂ (· = ·) as as := List.forall₂_same.2 fun _ _ => rfl
  have hstep {a b : α} (hab : a = b) : Ensures (f a) (· = g b) := hab ▸ hf a
  refine (Ensures.mapM (R := (· = ·)) (S := (· = ·)) hstep hself).mono fun _ h => ?_
  rwa [List.forall₂_eq_eq_eq] at h

/-! ## Testing -/

theorem ensures_checkLine (limit index total : ℕ) (line : String) :
    Ensures (checkLine limit index total line) (· = .ofLine limit index total line) := by
  rw [checkLine, CheckedLine.ofLine]
  cases TestLine.parse? line with
  | none => exact Machine.ensures_pure rfl
  | some t => exact (ensures_prove limit t.expression).map fun _ h => by rw [h]

theorem ensures_checkLines (limit : ℕ) (lines : List String) :
    Ensures (checkLines limit lines) (· = CheckedLine.ofLines limit lines) :=
  ensures_mapM_eq _ fun l => ensures_checkLine limit (l.2 + 1) lines.length l.1

/-! ## Proving and sessions -/

theorem ensures_proveAll (limit : ℕ) (expressions : List String) :
    Ensures (proveAll limit expressions) (· = Meadow.proveAll limit expressions) :=
  ensures_mapM_eq _ fun e => (ensures_prove limit e).map fun _ h => by rw [h]

theorem ensures_answer (limit : ℕ) (style : Style) (line : String) :
    Ensures (answer limit style line) (· = Session.answer limit style line) := by
  rw [answer, Session.answer]
  cases Session.expression? line with
  | none => exact Machine.ensures_pure rfl
  | some e => exact (ensures_prove limit e).map fun _ h => by rw [h]

theorem ensures_answers (limit : ℕ) (style : Style) (input : List String) :
    Ensures (answers limit style input) (· = Session.answers limit style input) :=
  (ensures_mapM_eq input (ensures_answer limit style)).map fun _ h => by
    rw [h, Session.answers, List.flatMap_def]

/-! ## Jobs -/

theorem ensures_result (input : List String) (job : Job) :
    Ensures (result input job) (· = job.result input) := by
  cases job with
  | session s =>
    exact (ensures_answers s.maxVariables s.style (Job.edited input)).map fun _ h => by
      rw [h, Job.result]
  | prove s expressions =>
    exact (ensures_proveAll s.maxVariables expressions).map fun _ h => by rw [h, Job.result]
  | test s lines =>
    exact (ensures_checkLines s.maxVariables lines).map fun _ h => by rw [h, Job.result]

/-- Unless an exponent overflows, a run of the program over machine words leaves behind what one
with exponents of any size does, in both builds. -/
theorem ensures_run (files : Files) (terminal : Bool) (args input : List String) :
    Ensures (run files terminal args input) (· = Meadow.run files terminal args input) := by
  rw [run, Meadow.run]
  cases Options.ofArguments args with
  | error stop => exact Machine.ensures_pure rfl
  | ok options =>
    dsimp only
    cases Job.ofOptions files terminal options with
    | error e => exact Machine.ensures_pure rfl
    | ok job => exact (ensures_result input job).map fun _ h => by rw [h]

end Meadow.Stored
