import Meadow.Testing.Line
import Meadow.Testing.Tally

set_option autoImplicit false

/-!
# Test runs

Every line of a test run is a test case.  It passes if it is a test line and its
expression gets the verdict that the line expects.
-/

namespace Meadow

/-- A test case: a line, its number among all of them, and what became of it. -/
structure TestCase where
  index : Nat
  total : Nat
  line : String
  /-- What the line expects, if it is a test line. -/
  expected : Option Expectation
  expression : String
  verdict : Option Bool
  passed : Bool
  deriving DecidableEq, Repr

/-- A test case with the report on its expression, if there is one. -/
structure CheckedLine where
  report : Option Report
  case : TestCase
  deriving DecidableEq, Repr

namespace CheckedLine

/-- Check a line. -/
def ofLine (limit index total : Nat) (line : String) : CheckedLine :=
  match TestLine.parse? line with
  | none => ⟨none, index, total, line, none, line, none, false⟩
  | some t =>
    let report := prove limit t.expression
    ⟨some report, index, total, line, some t.expectation, t.expression, report.verdict,
      t.expectation.verdict == report.verdict⟩

/-- Check lines in order, counting them from 1. -/
def ofLines (limit : Nat) (lines : List String) : List CheckedLine :=
  lines.zipIdx.map fun l => ofLine limit (l.2 + 1) lines.length l.1

/-- The tally of checked lines. -/
def tally (checked : List CheckedLine) : Tally := .ofList (checked.map fun c => c.case.passed)

end CheckedLine
end Meadow
