import Meadow.Lines
import Meadow.Report

set_option autoImplicit false

/-!
# Test lines

A test line says what is expected of an expression: a label, white space, and the
expression, which is not empty and has no line feed in it.  White space may be all
there is of the expression.
-/

namespace Meadow

/-- What a test line expects of its expression. -/
inductive Expectation where
  /-- An equation that is proven. -/
  | proof
  /-- An equation that is refuted. -/
  | refutation
  /-- No verdict: an error, or a value that is no equation. -/
  | noVerdict
  deriving DecidableEq, Repr

namespace Expectation

/-- The word that stands for the expectation on a test line. -/
def label : Expectation → String
  | proof => "TRUE"
  | refutation => "FALSE"
  | noVerdict => "ERROR"

/-- The verdict that is expected. -/
def verdict : Expectation → Option Bool
  | proof => some true
  | refutation => some false
  | noVerdict => none

def all : List Expectation := [proof, refutation, noVerdict]

end Expectation

/-- An expression with what is expected of it. -/
structure TestLine where
  expectation : Expectation
  expression : String
  deriving DecidableEq, Repr

namespace TestLine

/-- The expression behind a label.  The white space before it reaches as far as it
can, but leaves at least one character. -/
def expression? (rest : List Char) : Option String :=
  let gap := rest.dropLast.takeWhile Unicode.isBlank
  let text := rest.drop gap.length
  if gap.isEmpty || text.contains '\n' then none
  else some (String.ofList (Lines.trimChars text))

/-- The test line of a given expectation that a line is. -/
def ofChars? (line : List Char) (e : Expectation) : Option TestLine :=
  (e.label.toList.isPrefixOf? line).bind fun rest => (expression? rest).map (⟨e, ·⟩)

/-- The test line that a line is, if it is one. -/
def parse? (line : String) : Option TestLine :=
  Expectation.all.findSome? (ofChars? line.toList)

end TestLine
end Meadow
