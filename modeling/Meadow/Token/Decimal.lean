import Meadow.Poly.Basic

set_option autoImplicit false

/-!
# Decimal literals

A literal is a run of digits, optionally followed by a point and more digits; it
denotes an exact rational.  The number of digits behind the point is kept as a number
here.  The program puts it into a word of 32 bits, which makes no difference to a literal
with fewer than `2 ^ 32` digits there (`Decimal.ofParts_eq_of_lt`); a longer one takes more
than four gigabytes of text, and is left out of account.
-/

namespace Meadow.Decimal

/-- The number that a run of digits denotes. -/
def ofDigits (cs : List Char) : Nat :=
  cs.foldl (fun n c => 10 * n + (c.toNat - '0'.toNat)) 0

/-- The rational that digits before and after the point denote. -/
def ofParts (whole fraction : List Char) : Rat :=
  mkRat (ofDigits (whole ++ fraction)) (Nat.pow 10 fraction.length)

/-- The number of digits after the point may be put into a word if it fits. -/
theorem ofParts_eq_of_lt {fraction : List Char} (h : fraction.length < UInt32.size)
    (whole : List Char) : ofParts whole fraction =
      mkRat (ofDigits (whole ++ fraction)) (Nat.pow 10 (UInt32.ofNat fraction.length).toNat) := by
  rw [UInt32.toNat_ofNat_of_lt' h, ofParts]

/-- The value of a literal: at least one digit, then nothing or a point and any
number of digits. -/
def value? (cs : List Char) : Option Rat :=
  let whole := cs.takeWhile Char.isDigit
  if whole.isEmpty then none
  else
    match cs.dropWhile Char.isDigit with
    | [] => some (ofParts whole [])
    | '.' :: fraction => if fraction.all Char.isDigit then some (ofParts whole fraction) else none
    | _ => none

end Meadow.Decimal
