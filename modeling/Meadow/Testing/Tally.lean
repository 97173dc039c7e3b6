set_option autoImplicit false

/-!
# The tally of a test run
-/

namespace Meadow

/-- How many test cases there were, and how many of them succeeded. -/
structure Tally where
  succeeded : Nat
  total : Nat
  deriving DecidableEq, Repr

namespace Tally

def empty : Tally := ⟨0, 0⟩

/-- Count one more test case. -/
def record (t : Tally) (passed : Bool) : Tally :=
  ⟨if passed then t.succeeded + 1 else t.succeeded, t.total + 1⟩

def failed (t : Tally) : Nat := t.total - t.succeeded

/-- The number of failures, as far as an exit code can hold it. -/
def exitCode (t : Tally) : Nat := min t.failed 255

/-- The tally of the outcomes of test cases. -/
def ofList (passed : List Bool) : Tally := passed.foldl record empty

end Tally
end Meadow
