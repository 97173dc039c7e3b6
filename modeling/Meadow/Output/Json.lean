import Meadow.Output.JsonValue
import Meadow.Output.Style

set_option autoImplicit false

/-!
# Records as JSON objects

A record is an object with its type as the first member.  What is not there is left
out of a report and null in a test case.
-/

namespace Meadow

/-- A member of an object that is left out if it has no value. -/
def JsonValue.optionalMember (key : String) (value : Option String) : List (String × JsonValue) :=
  value.toList.map fun v => (key, string v)

/-- A case as an object with a member for every variable. -/
def Case.toJson (c : Case) : JsonValue :=
  .object (c.cases.map fun v => (v.1, .string v.2.label))

/-- The members on an outcome. -/
def Outcome.members : Outcome → List (String × JsonValue)
  | proven => [("outcome", .string "proven")]
  | refuted case residue =>
    [("outcome", .string "refuted"), ("counterexample", case.toJson),
      ("residue", .string residue)]
  | simplified form => [("outcome", .string "simplified"), ("form", .string form)]
  | error message => [("outcome", .string "error"), ("message", .string message)]

/-- The members on a report. -/
def Report.members (r : Report) : List (String × JsonValue) :=
  ("input", .string r.input) :: JsonValue.optionalMember "equation" r.equation ++
    JsonValue.optionalMember "smf" r.standardForm ++ r.outcome.members

/-- The members on a test case. -/
def TestCase.members (c : TestCase) : List (String × JsonValue) :=
  [("index", .number c.index), ("total", .number c.total), ("line", .string c.line),
    ("expected", .ofString? (c.expected.map Expectation.label)),
    ("expression", .string c.expression), ("verdict", .ofBool? c.verdict),
    ("passed", .boolean c.passed)]

/-- The members on a tally. -/
def Tally.members (t : Tally) : List (String × JsonValue) :=
  [("succeeded", .number t.succeeded), ("failed", .number t.failed), ("total", .number t.total)]

/-- The object of a record. -/
def Record.toJson : Record → JsonValue
  | report r => .object (("type", .string "report") :: r.members)
  | testCase c => .object (("type", .string "test_case") :: c.members)
  | summary t => .object (("type", .string "summary") :: t.members)

end Meadow
