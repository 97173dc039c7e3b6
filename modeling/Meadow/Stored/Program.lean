import Meadow.Program
import Meadow.Stored.Statement

set_option autoImplicit false

/-!
# The program over machine words

What the program writes, with every proof done over stored forms.
-/

namespace Meadow.Stored

/-! ## Proving and testing -/

/-- The records on expressions. -/
def proveAll (limit : Nat) (expressions : List String) : Machine (List Record) :=
  expressions.mapM fun e => return .report (← prove limit e)

/-- Check a line. -/
def checkLine (limit index total : Nat) (line : String) : Machine CheckedLine := do
  match TestLine.parse? line with
  | none => return ⟨none, index, total, line, none, line, none, false⟩
  | some t =>
    let report ← prove limit t.expression
    return ⟨some report, index, total, line, some t.expectation, t.expression, report.verdict,
      t.expectation.verdict == report.verdict⟩

/-- Check lines in order, counting them from 1. -/
def checkLines (limit : Nat) (lines : List String) : Machine (List CheckedLine) :=
  lines.zipIdx.mapM fun l => checkLine limit (l.2 + 1) lines.length l.1

/-! ## Sessions -/

/-- The lines that answer a line of input. -/
def answer (limit : Nat) (style : Style) (line : String) : Machine (List String) := do
  match Session.expression? line with
  | none => return [""]
  | some e => return style.lines (.report (← prove limit e)) ++ [""]

/-- The lines that answer all the input. -/
def answers (limit : Nat) (style : Style) (input : List String) : Machine (List String) :=
  return (← input.mapM (answer limit style)).flatten

/-! ## Jobs -/

/-- Do a job.  The lines of input are those of a session, as they were sent. -/
def result (input : List String) : Job → Machine Job.Result
  | .session s => do
    let lines := Job.edited input
    return ⟨← answers s.maxVariables s.style lines,
      if lines.length = input.length then 0 else Job.brokenOff⟩
  | .prove s expressions =>
    return ⟨s.style.linesOfAll (← proveAll s.maxVariables expressions), 0⟩
  | .test s lines => do
    let checked ← checkLines s.maxVariables lines
    return ⟨s.style.linesOfAll (CheckedLine.recordsOfAll s.debug checked),
      (CheckedLine.tally checked).exitCode⟩

/-- Run the program. -/
def run (files : Files) (terminal : Bool) (args input : List String) : Machine Response :=
  match Options.ofArguments args with
  | .error stop => return .ofStop stop
  | .ok options =>
    match Job.ofOptions files terminal options with
    | .error e => return .ofRunError e
    | .ok job => return .ofResult (← result input job)

end Meadow.Stored
