import Meadow.Testing.Run

set_option autoImplicit false

/-!
# What is written, and how

The output is made of records.  A style says how much of them is written and in
which form.
-/

namespace Meadow

/-- A record of the output. -/
inductive Record where
  | report (r : Report)
  | testCase (c : TestCase)
  | summary (t : Tally)
  deriving DecidableEq, Repr

/-- How much is written. -/
inductive Verbosity where
  /-- Verdicts, test cases that fail, and the summary. -/
  | quiet
  | normal
  /-- Intermediate steps as well. -/
  | verbose
  deriving DecidableEq, Repr

/-- The form of the output. -/
inductive Format where
  /-- Lines for people. -/
  | text
  /-- A JSON object on every line. -/
  | json
  deriving DecidableEq, Repr

/-- How records are written. -/
structure Style where
  format : Format
  verbosity : Verbosity
  color : Bool
  deriving DecidableEq, Repr

/-- The style that a user asks for; being quiet goes before being verbose. -/
def Style.ofFlags (json debug quiet color : Bool) : Style where
  format := if json then .json else .text
  verbosity := if quiet then .quiet else if debug then .verbose else .normal
  color := color

/-- A record that is left out of quiet output: a test case that passes. -/
def Record.isPassingCase : Record → Bool
  | testCase c => c.passed
  | report _ | summary _ => false

end Meadow
