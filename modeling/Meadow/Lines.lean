import Meadow.Unicode.Properties

set_option autoImplicit false

/-!
# Lines of text

Text is cut into lines at line feeds.  The expressions of a text are its lines
without white space around them, apart from empty lines and from comments, which
start with a number sign.
-/

namespace Meadow.Lines

open Unicode

/-! ## White space at the ends -/

/-- The characters without white space at either end. -/
def trimChars (cs : List Char) : List Char :=
  ((cs.dropWhile isBlank).reverse.dropWhile isBlank).reverse

/-- A text without white space at either end. -/
def trim (s : String) : String := String.ofList (trimChars s.toList)

/-! ## Cutting -/

/-- The stretches between line feeds, one more than there are line feeds. -/
def splitChars : List Char → List (List Char)
  | [] => [[]]
  | c :: cs => if c = '\n' then [] :: splitChars cs else (splitChars cs).modifyHead (c :: ·)

/-- The stretches of a text between line feeds. -/
def split (s : String) : List String := (splitChars s.toList).map String.ofList

/-- The lines of a text.  A line feed ends a line, so none is started by the last
one. -/
def ofText (s : String) : List String :=
  let stretches := split s
  if stretches.getLast? = some "" then stretches.dropLast else stretches

/-! ## Expressions -/

/-- Is there something to prove on a line without white space at its ends? -/
def isExpression (line : String) : Bool :=
  match line.toList with
  | [] => false
  | c :: _ => c != '#'

/-- The expressions of a text, one on a line. -/
def expressions (content : String) : List String := ((split content).map trim).filter isExpression

end Meadow.Lines
