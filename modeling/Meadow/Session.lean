import Meadow.Output.Text

set_option autoImplicit false

/-!
# Working through input

The expressions of a text are proven one after the other; as test lines they are
checked, and a summary closes the run.  In a session each line of input is answered
at once, and an empty line follows the answer.
-/

namespace Meadow

/-! ## Proving -/

/-- The records on expressions. -/
def proveAll (limit : Nat) (expressions : List String) : List Record :=
  expressions.map fun e => .report (prove limit e)

/-! ## Testing -/

/-- The records on a line, with the report only if it is asked for. -/
def CheckedLine.records (withReport : Bool) (c : CheckedLine) : List Record :=
  (if withReport then c.report.toList.map Record.report else []) ++ [.testCase c.case]

/-- The records on checked lines, with their summary. -/
def CheckedLine.recordsOfAll (withReports : Bool) (checked : List CheckedLine) : List Record :=
  checked.flatMap (records withReports) ++ [.summary (tally checked)]

/-! ## Sessions -/

namespace Session

/-- The expression on a line of input, if there is one. -/
def expression? (line : String) : Option String :=
  let expression := Lines.trim line
  if expression.isEmpty then none else some expression

/-- The lines that answer a line of input. -/
def answer (limit : Nat) (style : Style) (line : String) : List String :=
  (match expression? line with
    | none => []
    | some e => style.lines (.report (prove limit e))) ++ [""]

/-- The lines that answer all the input. -/
def answers (limit : Nat) (style : Style) (input : List String) : List String :=
  input.flatMap (answer limit style)

/-- The expressions to remember for later sessions. -/
def remembered (input : List String) : List String := input.filterMap expression?

end Session
end Meadow
