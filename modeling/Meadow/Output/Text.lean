import Meadow.Output.Json
import Meadow.Output.Style

set_option autoImplicit false

/-!
# Records as lines

A record makes lines for people, or one line with its JSON object.
-/

namespace Meadow

/-! ## Colors -/

/-- The colors in use. -/
inductive Color where
  | red
  | green
  | yellow
  deriving DecidableEq, Repr

/-- The number of the color in a terminal's control sequences. -/
def Color.code : Color → String
  | red => "31"
  | green => "32"
  | yellow => "33"

/-- A text in a color, between the control sequences that turn it on and off. -/
def Color.paint (c : Color) (bold : Bool) (text : String) : String :=
  "\x1b[" ++ (if bold then "1;" else "") ++ c.code ++ "m" ++ text ++ "\x1b[0m"

namespace Style

/-- A text in a color, if the style has colors. -/
def paint (s : Style) (c : Color) (bold : Bool) (text : String) : String :=
  if s.color then c.paint bold text else text

/-- A line that tells of an error. -/
def errorLine (s : Style) (message : String) : String :=
  s.paint .red true "ERROR" ++ " " ++ message

/-! ## Reports -/

/-- The line with the verdict on an equation. -/
def verdictLine (s : Style) (verdict : Bool) (input : String) : String :=
  let label := if verdict then s.paint .green true "TRUE" else s.paint .red true "FALSE"
  "Proven to be " ++ label ++ ": " ++ input

/-- The lines on the steps before the outcome. -/
def stepLines (s : Style) (r : Report) : List String :=
  match r.equation with
  | none => []
  | some e =>
    let checking := if s.verbosity = .quiet then [] else ["Checking equation: " ++ e]
    let standardForm := if s.verbosity = .verbose then r.standardForm.toList else []
    checking ++ standardForm.map fun f => "Standard meadow form: " ++ f ++ " = 0"

/-- The lines on the outcome. -/
def outcomeLines (s : Style) (r : Report) : List String :=
  match r.outcome with
  | .proven => [s.verdictLine true r.input]
  | .refuted case residue =>
    (if case.cases.isEmpty then [] else ["Counterexample: " ++ case.render]) ++
      [s.verdictLine false r.input, "Resulting expression: " ++ residue ++ " = 0"]
  | .simplified form => [form]
  | .error message => [s.errorLine message]

/-! ## Test runs -/

/-- What is wrong with a test case that fails. -/
def complaint (c : TestCase) : String :=
  match c.expected with
  | some e => "Expression \"" ++ c.expression ++ "\" expected to be " ++ e.label
  | none => "Malformed test line \"" ++ c.line ++ "\", expected TRUE, FALSE or ERROR"

/-- The line with the state of a test case. -/
def statusLine (s : Style) (c : TestCase) : String :=
  let status := if c.passed then s.paint .green false "succ" else s.paint .red false "fail"
  toString c.index ++ "/" ++ toString c.total ++ "\t" ++ status ++ "  " ++ c.line

/-- The line with the tally. -/
def summaryLine (s : Style) (t : Tally) : String :=
  s.paint (if t.failed = 0 then .green else .yellow) true
    (toString t.succeeded ++ " / " ++ toString t.total ++ " tests succeeded!")

/-! ## Records -/

/-- The lines of a record. -/
def textLines (s : Style) : Record → List String
  | .report r => s.stepLines r ++ s.outcomeLines r
  | .testCase c =>
    (if c.passed then [] else [s.errorLine (complaint c)]) ++ [s.statusLine c]
  | .summary t => [s.summaryLine t]

/-- The lines that a record makes. -/
def lines (s : Style) (r : Record) : List String :=
  if s.verbosity = .quiet && r.isPassingCase then []
  else
    match s.format with
    | .text => s.textLines r
    | .json => [r.toJson.render]

/-- The lines that several records make. -/
def linesOfAll (s : Style) (rs : List Record) : List String := rs.flatMap s.lines

end Style
end Meadow
