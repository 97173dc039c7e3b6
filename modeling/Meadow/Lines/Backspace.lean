import Meadow.Unicode.Grapheme

set_option autoImplicit false

/-!
# Backspaces

Input that is not typed at a terminal may still hold backspaces.  Each takes back what
a reader takes for one character before it.  The length of that is noted in a single
byte: of one with 256 bytes or more only the remainder modulo 256 is taken back, and
that fails where it would cut a character in two.  Main statement: a line without
backspaces stays as it is (`takeBack_of_not_mem`).
-/

namespace Meadow.Lines

open Unicode

/-! ## Taking back -/

/-- The length that is noted for a visible character, its bytes modulo 256. -/
def notedLength (cs : List Char) : UInt8 := UInt8.ofNat (String.ofList cs).utf8ByteSize

/-- Drop a number of bytes from a text, given with its last character first.  There is no
answer if that would cut a character in two. -/
def dropBytes : Nat → List Char → Option (List Char)
  | 0, cs => some cs
  | _ + 1, [] => some []
  | n + 1, c :: cs => if c.utf8Size ≤ n + 1 then dropBytes (n + 1 - c.utf8Size) cs else none

/-- What backspaces leave, with the last character first, if `kept` is left of what is
before and `lengths` are the lengths noted for it, the last one first. -/
def takeBackFrom (kept : List Char) (lengths : List UInt8) :
    List (List Char) → Option (List Char)
  | [] => some kept
  | v :: vs =>
    if v = ['\x08'] then
      match lengths with
      | [] => takeBackFrom kept [] vs
      | n :: lengths => do takeBackFrom (← dropBytes n.toNat kept) lengths vs
    else takeBackFrom (v.reverse ++ kept) (notedLength v :: lengths) vs

/-- What backspaces leave of a line. -/
def takeBack (line : String) : Option String :=
  (takeBackFrom [] [] (graphemes line.toList)).map fun kept => String.ofList kept.reverse

/-! ## Lines without backspaces -/

theorem takeBackFrom_of_forall_ne {vs : List (List Char)} (h : ∀ v ∈ vs, v ≠ ['\x08'])
    (kept : List Char) (lengths : List UInt8) :
    takeBackFrom kept lengths vs = some (vs.flatten.reverse ++ kept) := by
  induction vs generalizing kept lengths with
  | nil => rfl
  | cons v vs ih =>
    have hv : v ≠ ['\x08'] := h v (by simp)
    have hvs := ih fun w hw => h w (by simp [hw])
    simp [takeBackFrom, hv, hvs]

/-- A line without backspaces stays as it is. -/
theorem takeBack_of_not_mem {line : String} (h : '\x08' ∉ line.toList) :
    takeBack line = some line := by
  have ne : ∀ v ∈ graphemes line.toList, v ≠ ['\x08'] := by
    intro v hv hb
    apply h
    rw [← flatten_graphemes line.toList]
    exact List.mem_flatten.2 ⟨v, hv, by simp [hb]⟩
  rw [takeBack, takeBackFrom_of_forall_ne ne, flatten_graphemes]
  simp

end Meadow.Lines
