set_option autoImplicit false

/-!
# JSON values

The JSON values that records are made of, written without blanks.  In a string a
quote, a backslash and the characters below U+0020 are escaped, and nothing else.
-/

namespace Meadow

/-- A JSON value: no arrays and no numbers but natural ones are needed. -/
inductive JsonValue where
  | null
  | boolean (b : Bool)
  | number (n : Nat)
  | string (s : String)
  | object (members : List (String × JsonValue))

namespace JsonValue

/-- A string, or null. -/
def ofString? : Option String → JsonValue
  | none => null
  | some s => string s

/-- A truth value, or null. -/
def ofBool? : Option Bool → JsonValue
  | none => null
  | some b => boolean b

/-! ## Strings -/

/-- A character of a string: some have an escape sequence of their own, and the
other control characters are written by number. -/
def escapeChar (c : Char) : List Char :=
  if c = '"' then ['\\', '"']
  else if c = '\\' then ['\\', '\\']
  else if c = '\n' then ['\\', 'n']
  else if c = '\r' then ['\\', 'r']
  else if c = '\t' then ['\\', 't']
  else if c = '\x08' then ['\\', 'b']
  else if c = '\x0c' then ['\\', 'f']
  else if c.toNat < 32 then
    ['\\', 'u', '0', '0', Nat.digitChar (c.toNat / 16), Nat.digitChar (c.toNat % 16)]
  else [c]

/-- The characters of a string in quotes. -/
def quote (s : String) : List Char := '"' :: s.toList.flatMap escapeChar ++ ['"']

/-! ## Values -/

mutual

/-- The characters of a value. -/
def chars : JsonValue → List Char
  | null => "null".toList
  | boolean b => (if b then "true" else "false").toList
  | number n => Nat.toDigits 10 n
  | string s => quote s
  | object members => '\x7b' :: memberChars true members ++ ['\x7d']

/-- The characters of the members of an object, with a comma before each of them
but the first one. -/
def memberChars (first : Bool) : List (String × JsonValue) → List Char
  | [] => []
  | (key, value) :: members =>
    (if first then [] else [',']) ++ quote key ++ ':' :: value.chars ++ memberChars false members

end

/-- The text of a value. -/
def render (v : JsonValue) : String := String.ofList v.chars

end JsonValue
end Meadow
