set_option autoImplicit false

/-!
# Computing with machine words

Exponents are kept in words of 32 bits.  The program comes in two builds, which differ
where a sum of words does not fit: one of them checks every sum and stops there, the
other goes on with the sum modulo the number of words.  A computation is therefore a
function of the build.  It may end with a value, stop at a fault, or never end, as a
wrapped exponent can make a loop turn for ever that would come to its end otherwise.
-/

namespace Meadow

/-- A build of the program. -/
inductive Build where
  /-- Sums are checked, and one that does not fit stops the computation. -/
  | checked
  /-- Sums wrap around. -/
  | wrapping
  deriving DecidableEq, Repr

/-- What stops a computation. -/
inductive Fault where
  /-- A sum of words does not fit into a word. -/
  | overflow
  /-- A rational is divided by zero. -/
  | zeroDivision
  deriving DecidableEq, Repr

/-- A computation in one build or the other; `none` for one that never ends. -/
abbrev Machine (α : Type) : Type := ReaderT Build (ExceptT Fault Option) α

namespace Machine

/-- The sum of two words. -/
def add (a b : UInt32) : Machine UInt32
  | .checked => if a.toNat + b.toNat < UInt32.size then pure (a + b) else throw .overflow
  | .wrapping => pure (a + b)

/-- The quotient of two rationals. -/
def divide (a b : Rat) : Machine Rat := if b = 0 then throw .zeroDivision else return a / b

/-- What a computation ends with in a build, if it ends there without a fault. -/
def value? {α : Type} (c : Machine α) (build : Build) : Option α :=
  match c build with
  | some (.ok a) => some a
  | _ => none

end Machine
end Meadow
