import Meadow.Token.Basic
import Meadow.Token.Decimal
import Meadow.Unicode.Alphabetic
import Meadow.Unicode.Properties

set_option autoImplicit false

/-!
# Lexemes

White space separates the lexemes of an expression where they would run together
and means nothing else.  A name is an alphabetic character and the longest run of
alphabetic and numeric characters and underscores behind it; a number is a run of
ASCII digits, with a point and another run behind it if there is a point.  Every
other lexeme is a single character.

Reading stops at a character that starts no lexeme.
-/

namespace Meadow

/-- A token with the characters that it was read from. -/
structure Lexeme where
  text : List Char
  token : Token

namespace Lexeme

open Unicode

/-- May the character stand in a name behind its first one? -/
def isNamePart (c : Char) : Bool := isAlphabetic c || isNumeric c || c == '_'

/-- The token that a single character stands for. -/
def symbol? (c : Char) : Option Token :=
  if c = '(' then some .leftParen
  else if c = ')' then some .rightParen
  else (Operator.ofChar? c).map .operator

/-- The name that starts with `c`. -/
def name (c : Char) (cs : List Char) : Lexeme :=
  let text := c :: cs.takeWhile isNamePart
  ⟨text, .operand (.var (String.ofList text))⟩

/-- The number at the start of the characters. -/
def number (cs : List Char) : Lexeme :=
  let whole := cs.takeWhile Char.isDigit
  match cs.dropWhile Char.isDigit with
  | '.' :: rest =>
    let fraction := rest.takeWhile Char.isDigit
    ⟨whole ++ '.' :: fraction, .operand (.constant (Decimal.ofParts whole fraction))⟩
  | _ => ⟨whole, .operand (.constant (Decimal.ofParts whole []))⟩

/-- The lexeme at the start of the characters `c :: cs`. -/
def read? (c : Char) (cs : List Char) : Option Lexeme :=
  if isAlphabetic c then some (name c cs)
  else if c.isDigit then some (number (c :: cs))
  else (symbol? c).map fun t => ⟨[c], t⟩

/-- A lexeme has at least one character. -/
theorem length_text_pos {c : Char} {cs : List Char} {l : Lexeme} (h : read? c cs = some l) :
    0 < l.text.length := by
  unfold read? at h
  split at h
  · cases h
    simp [name]
  · split at h
    · next hd =>
      cases h
      unfold number
      split <;> simp [hd]
    · obtain ⟨t, -, rfl⟩ := Option.map_eq_some_iff.1 h
      simp

end Lexeme

/-- A character that starts no lexeme, with the number of characters before it. -/
structure InvalidCharacter where
  char : Char
  position : Nat
  deriving DecidableEq, Repr

/-- The lexemes of an expression, up to the first invalid character if there is
one. -/
structure Lexing where
  lexemes : List Lexeme
  invalid : Option InvalidCharacter

namespace Lexing

/-- Read lexemes from characters that follow so many others. -/
def ofChars (position : Nat) (cs : List Char) : Lexing :=
  match h : cs.dropWhile Unicode.isBlank with
  | [] => ⟨[], none⟩
  | c :: rest =>
    let position := position + (cs.takeWhile Unicode.isBlank).length
    match hl : Lexeme.read? c rest with
    | none => ⟨[], some ⟨c, position⟩⟩
    | some l =>
      have : rest.length + 1 - l.text.length < cs.length := by
        have hpos := Lexeme.length_text_pos hl
        have hle : (c :: rest).length ≤ cs.length :=
          h ▸ (List.dropWhile_sublist Unicode.isBlank).length_le
        simp only [List.length_cons] at hle
        omega
      let others := ofChars (position + l.text.length) ((c :: rest).drop l.text.length)
      ⟨l :: others.lexemes, others.invalid⟩
termination_by cs.length

/-- The lexemes of a text. -/
def ofString (s : String) : Lexing := ofChars 0 s.toList

/-- The tokens without their characters. -/
def tokens (l : Lexing) : List Token := l.lexemes.map Lexeme.token

end Lexing
end Meadow
