import Meadow.Unicode.GraphemeBreak

set_option autoImplicit false

/-!
# Visible characters

What a reader takes for one character may be written by several: a letter with its
accents, a syllable letter by letter, a flag by two letters.  Text is cut into such
extended grapheme clusters by the rules of Unicode.  Main statement: nothing of the text
is lost (`flatten_graphemes`).
-/

namespace Meadow.Unicode

/-! ## Where characters join -/

namespace GraphemeBreak

/-- Does a visible character end on either side? -/
def isAlone : GraphemeBreak → Bool
  | carriageReturn | lineFeed | control => true
  | _ => false

/-- Is it a mark without a width, apart from the joiner? -/
def isMark : GraphemeBreak → Bool
  | extend | linker | nonJoiner => true
  | _ => false

/-- May it stand between two consonants that a linker joins? -/
def isWithinConjunct : GraphemeBreak → Bool
  | extend | linker | joiner => true
  | _ => false

/-- Do the characters, the last one first, end in a consonant that a linker joins to the
next one? -/
def endLinked (before : List GraphemeBreak) : Bool :=
  (before.takeWhile isWithinConjunct).contains linker &&
    (before.dropWhile isWithinConjunct).head? == some consonant

/-- Do the characters, the last one first, end in a pictograph that a joiner joins to the
next one? -/
def endJoined : List GraphemeBreak → Bool
  | joiner :: before => (before.dropWhile isMark).head? == some pictograph
  | _ => false

/-- Do the characters, the last one first, end in the first half of a flag? -/
def endHalved (before : List GraphemeBreak) : Bool :=
  (before.takeWhile (· == regional)).length % 2 == 1

/-- Is a character part of the same visible character as the last one before it?  Those
before it are given with the last one first. -/
def joins : List GraphemeBreak → GraphemeBreak → Bool
  | [], _ => false
  | last :: earlier, next =>
    if last = carriageReturn && next = lineFeed then true
    else if last.isAlone || next.isAlone then false
    else if last = prepend then true
    else match next with
      | extend | linker | nonJoiner | joiner | spacing => true
      | leading | openSyllable | closedSyllable => last == leading
      | vowel => last == leading || last == openSyllable || last == vowel
      | trailing =>
        last == openSyllable || last == closedSyllable || last == vowel || last == trailing
      | consonant => endLinked (last :: earlier)
      | pictograph => endJoined (last :: earlier)
      | regional => endHalved (last :: earlier)
      | _ => false

end GraphemeBreak

/-! ## Cutting -/

/-- The visible characters from a given character on; `before` tells what is before it,
the last one first. -/
def graphemesFrom (before : List GraphemeBreak) (c : Char) : List Char → List (List Char)
  | [] => [[c]]
  | d :: ds =>
    let before := graphemeBreak c :: before
    let later := graphemesFrom before d ds
    if GraphemeBreak.joins before (graphemeBreak d) then later.modifyHead (c :: ·)
    else [c] :: later

/-- The visible characters of a text. -/
def graphemes : List Char → List (List Char)
  | [] => []
  | c :: cs => graphemesFrom [] c cs

/-! ## Nothing is lost -/

theorem graphemesFrom_ne_nil (before : List GraphemeBreak) (c : Char) (cs : List Char) :
    graphemesFrom before c cs ≠ [] := by
  induction cs generalizing before c with
  | nil => simp [graphemesFrom]
  | cons d ds ih =>
    simp only [graphemesFrom]
    split
    · simpa using ih _ d
    · simp

theorem flatten_graphemesFrom (before : List GraphemeBreak) (c : Char) (cs : List Char) :
    (graphemesFrom before c cs).flatten = c :: cs := by
  induction cs generalizing before c with
  | nil => rfl
  | cons d ds ih =>
    have h := ih (graphemeBreak c :: before) d
    have ne := graphemesFrom_ne_nil (graphemeBreak c :: before) d ds
    simp only [graphemesFrom]
    generalize graphemesFrom (graphemeBreak c :: before) d ds = later at h ne ⊢
    split
    · cases later with
      | nil => exact absurd rfl ne
      | cons v vs => simpa using h
    · simpa using h

/-- The visible characters make up the text. -/
theorem flatten_graphemes (cs : List Char) : (graphemes cs).flatten = cs := by
  cases cs with
  | nil => rfl
  | cons c cs => exact flatten_graphemesFrom [] c cs

end Meadow.Unicode
