import Meadow.Config.Document
import Meadow.VariableLimit

set_option autoImplicit false

/-!
# Configurations

A configuration document may name a file for the history of a session, set the limit
for the number of variables, and turn colors off.  Each key stands there at most
once, and no other key does.
-/

namespace Meadow

/-- The settings of a configuration document; all of them may be missing. -/
structure Config where
  histfile : Option String
  maxVariables : Option Nat
  color : Option Bool
  deriving DecidableEq, Repr

namespace Config

def empty : Config := ⟨none, none, none⟩

/-- Why a document is no configuration. -/
inductive Error where
  /-- It is no document, or has an entry that means nothing. -/
  | malformed
  /-- The limit for the number of variables is out of range. -/
  | limit (e : VariableLimit.Error)
  deriving DecidableEq, Repr

/-- The text of an error in the limit. -/
def limitMessage (e : VariableLimit.Error) : String :=
  "invalid value for 'max_variables': " ++ e.message

/-- Fill in a setting that is still missing. -/
def fill {α : Type} (setting : Option α) (value : α) : Option (Option α) :=
  match setting with
  | none => some (some value)
  | some _ => none

/-- The natural number that an integer is, if it is one that can be read at all. -/
def natural? (n : Int) : Option Nat :=
  if 0 ≤ n ∧ n < VariableLimit.numberBound then some n.toNat else none

/-- Add an entry to the settings. -/
def add (c : Config) (e : Entry) : Option Config :=
  match e.value with
  | .string s =>
    if e.key = "histfile" then (fill c.histfile s).map ({ c with histfile := · }) else none
  | .integer n =>
    if e.key = "max_variables" then
      ((natural? n).bind (fill c.maxVariables)).map ({ c with maxVariables := · })
    else none
  | .boolean b => if e.key = "color" then (fill c.color b).map ({ c with color := · }) else none

/-- The settings of a document, whatever the limit in it. -/
def read? (content : String) : Option Config :=
  (Document.parse? content).bind fun entries => entries.foldlM add empty

/-- The settings of a document. -/
def parse (content : String) : Except Error Config :=
  match read? content with
  | none => .error .malformed
  | some c =>
    match c.maxVariables with
    | none => .ok c
    | some n =>
      match VariableLimit.ofNat n with
      | .error e => .error (.limit e)
      | .ok _ => .ok c

end Config
end Meadow
