import Meadow.Lines

set_option autoImplicit false

/-!
# The limit for the number of variables

Cases double with every variable, so a user may set a limit from 1 to 30 for the
number of variables of an equation.
-/

namespace Meadow.VariableLimit

/-- The largest limit that may be set. -/
def largest : Nat := 30

/-- The limit where none is set. -/
def standard : Nat := 16

/-- Why a limit is refused. -/
inductive Error where
  | notANumber (text : String)
  | outOfRange (n : Nat)
  deriving DecidableEq, Repr

/-- The text of the error. -/
def Error.message : Error → String
  | notANumber text => "invalid number: " ++ text
  | outOfRange n => "must be between 1 and " ++ toString largest ++ ", got " ++ toString n

/-- Take a number as a limit. -/
def ofNat (n : Nat) : Except Error Nat :=
  if n = 0 ∨ largest < n then .error (.outOfRange n) else .ok n

/-- The numbers that are read at all are below this one. -/
def numberBound : Nat := Nat.pow 2 64

/-- The value of ASCII digits, of which there is at least one. -/
def digitsValue? (cs : List Char) : Option Nat :=
  if cs.isEmpty || !cs.all Char.isDigit then none
  else some (cs.foldl (fun n c => 10 * n + (c.toNat - '0'.toNat)) 0)

/-- Read a limit.  There may be white space around it and a plus sign before it. -/
def parse (s : String) : Except Error Nat :=
  let digits := match Lines.trimChars s.toList with
    | '+' :: cs => cs
    | cs => cs
  match digitsValue? digits with
  | none => .error (.notANumber s)
  | some n => if n < numberBound then ofNat n else .error (.notANumber s)

end Meadow.VariableLimit
