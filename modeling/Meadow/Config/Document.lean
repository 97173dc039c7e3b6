set_option autoImplicit false

/-!
# Configuration documents

A configuration document is a TOML document without tables: a line gives a key its
value, which is a string, an integer or a truth value.  Comments start with a number
sign.  Other values of TOML, tables and dotted keys are refused, as no setting has
any use for them.
-/

namespace Meadow.Config

/-- The value of a key. -/
inductive Value where
  | string (s : String)
  | integer (n : Int)
  | boolean (b : Bool)
  deriving DecidableEq, Repr

/-- A key with its value. -/
structure Entry where
  key : String
  value : Value
  deriving DecidableEq, Repr

namespace Document

/-! ## Characters -/

/-- Blanks within a line. -/
def isSpace (c : Char) : Bool := c == ' ' || c == '\t'

/-- Characters that may stand in comments and strings: no control character but the
tabulator. -/
def isText (c : Char) : Bool := c == '\t' || (32 ≤ c.toNat && c.toNat != 127)

/-- The value of a digit in a base of at most 16. -/
def digit? (base : Nat) (c : Char) : Option Nat :=
  let value? :=
    if c.isDigit then some (c.toNat - '0'.toNat)
    else if 'a' ≤ c ∧ c ≤ 'f' then some (c.toNat - 'a'.toNat + 10)
    else if 'A' ≤ c ∧ c ≤ 'F' then some (c.toNat - 'A'.toNat + 10)
    else none
  value?.filter (· < base)

/-- What follows a line end at the start of the characters. -/
def afterLineEnd? : List Char → Option (List Char)
  | '\n' :: cs => some cs
  | '\r' :: '\n' :: cs => some cs
  | _ => none

/-! ## Strings -/

/-- The character that a letter behind a backslash stands for. -/
def escape? : Char → Option Char
  | 'b' => some '\x08'
  | 't' => some '\t'
  | 'n' => some '\n'
  | 'f' => some '\x0c'
  | 'r' => some '\r'
  | 'e' => some '\x1b'
  | '"' => some '"'
  | '\\' => some '\\'
  | _ => none

/-- The number of hexadecimal digits behind a letter that starts a character number. -/
def codeLength? : Char → Option Nat
  | 'x' => some 2
  | 'u' => some 4
  | 'U' => some 8
  | _ => none

/-- The character with a given number. -/
def charOfCode? (n : Nat) : Option Char := if n.isValidChar then some (Char.ofNat n) else none

/-- Where the reading of a string in double quotes is. -/
inductive Progress where
  /-- In the text, or in the blanks and line ends that a backslash at the end of a
  line removes. -/
  | text (removing : Bool)
  /-- Behind a backslash. -/
  | escape
  /-- In a character number with so many more digits. -/
  | code (digits value : Nat)
  /-- Behind a backslash and blanks, of which only a line end makes sense. -/
  | lineEnd
  deriving DecidableEq, Repr

/-- The quotes that belong to a string of several lines and directly precede the
three that end it, and what follows.  The characters are those behind the first
three. -/
def closeLong (quote : Char) (cs : List Char) : List Char × List Char :=
  let extra := (cs.take 2).takeWhile (· == quote)
  (extra, cs.drop extra.length)

/-- Put a character before the text that was read. -/
def prepend (c : Char) : Option (List Char × List Char) → Option (List Char × List Char) :=
  Option.map fun r => (c :: r.1, r.2)

/-- Read a string in double quotes up to its end, behind which the rest follows. -/
def readBasic (long : Bool) : Progress → List Char → Option (List Char × List Char)
  | _, [] => none
  | .text removing, c :: cs =>
    if removing && (isSpace c || c == '\n' || (c == '\r' && cs.head? == some '\n')) then
      readBasic long (.text true) cs
    else if c = '\\' then readBasic long .escape cs
    else if c = '"' then
      if !long then some ([], cs)
      else if cs.take 2 = ['"', '"'] then some (closeLong '"' (cs.drop 2))
      else prepend c (readBasic long (.text false) cs)
    else if isText c || (long && (c == '\n' || (c == '\r' && cs.head? == some '\n'))) then
      prepend c (readBasic long (.text false) cs)
    else none
  | .escape, c :: cs =>
    match escape? c, codeLength? c with
    | some d, _ => prepend d (readBasic long (.text false) cs)
    | none, some n => readBasic long (.code n 0) cs
    | none, none =>
      if !long then none
      else if c = '\n' then readBasic long (.text true) cs
      else if isSpace c || (c == '\r' && cs.head? == some '\n') then readBasic long .lineEnd cs
      else none
  | .code n value, c :: cs =>
    match digit? 16 c with
    | none => none
    | some d =>
      let value := 16 * value + d
      if n ≤ 1 then
        match charOfCode? value with
        | none => none
        | some e => prepend e (readBasic long (.text false) cs)
      else readBasic long (.code (n - 1) value) cs
  | .lineEnd, c :: cs =>
    if c = '\n' then readBasic long (.text true) cs
    else if isSpace c || (c == '\r' && cs.head? == some '\n') then readBasic long .lineEnd cs
    else none

/-- Read a string in single quotes up to its end, behind which the rest follows. -/
def readLiteral (long : Bool) : List Char → Option (List Char × List Char)
  | [] => none
  | c :: cs =>
    if c = '\'' then
      if !long then some ([], cs)
      else if cs.take 2 = ['\'', '\''] then some (closeLong '\'' (cs.drop 2))
      else prepend c (readLiteral long cs)
    else if isText c || (long && (c == '\n' || (c == '\r' && cs.head? == some '\n'))) then
      prepend c (readLiteral long cs)
    else none

/-- Leave out a line end at the start. -/
def skipLineEnd (cs : List Char) : List Char := (afterLineEnd? cs).getD cs

/-- Read a string of one line, quotes included. -/
def readShort : List Char → Option (List Char × List Char)
  | '"' :: cs => readBasic false (.text false) cs
  | '\'' :: cs => readLiteral false cs
  | _ => none

/-- Read a string, quotes included. -/
def readString : List Char → Option (List Char × List Char)
  | '"' :: '"' :: '"' :: cs => readBasic true (.text false) (skipLineEnd cs)
  | '\'' :: '\'' :: '\'' :: cs => readLiteral true (skipLineEnd cs)
  | cs => readShort cs

/-! ## Integers -/

/-- The value of digits that continue a number, each after an underscore or not. -/
def continueDigits? (base value : Nat) : List Char → Option Nat
  | [] => some value
  | '_' :: c :: cs =>
    match digit? base c with
    | none => none
    | some d => continueDigits? base (base * value + d) cs
  | c :: cs =>
    match digit? base c with
    | none => none
    | some d => continueDigits? base (base * value + d) cs

/-- The value of digits, with single underscores only between them. -/
def digits? (base : Nat) : List Char → Option Nat
  | [] => none
  | c :: cs =>
    match digit? base c with
    | none => none
    | some d => continueDigits? base d cs

/-- The value of decimal digits, of which only a zero alone starts with zero. -/
def decimal? (cs : List Char) : Option Nat :=
  if cs.head? = some '0' ∧ 1 < cs.length then none else digits? 10 cs

/-- The integer that a word is. -/
def integer? : List Char → Option Int
  | '0' :: 'x' :: cs => (digits? 16 cs).map Int.ofNat
  | '0' :: 'o' :: cs => (digits? 8 cs).map Int.ofNat
  | '0' :: 'b' :: cs => (digits? 2 cs).map Int.ofNat
  | '+' :: cs => (decimal? cs).map Int.ofNat
  | '-' :: cs => (decimal? cs).map fun n => -(n : Int)
  | cs => (decimal? cs).map Int.ofNat

/-! ## Lines -/

/-- May the character stand in a key without quotes? -/
def isKeyChar (c : Char) : Bool := c.isAlphanum || c == '_' || c == '-'

/-- May the character stand in a value without quotes? -/
def isWordChar (c : Char) : Bool := isText c && !isSpace c && c != '#'

/-- The value that a word is. -/
def word? (cs : List Char) : Option Value :=
  if cs = "true".toList then some (.boolean true)
  else if cs = "false".toList then some (.boolean false)
  else (integer? cs).map .integer

/-- Read a key. -/
def readKey (cs : List Char) : Option (List Char × List Char) :=
  match cs.takeWhile isKeyChar with
  | [] => readShort cs
  | key => some (key, cs.dropWhile isKeyChar)

/-- Read a value. -/
def readValue (cs : List Char) : Option (Value × List Char) :=
  match cs with
  | '"' :: _ | '\'' :: _ => (readString cs).map fun r => (.string (String.ofList r.1), r.2)
  | _ => (word? (cs.takeWhile isWordChar)).map fun v => (v, cs.dropWhile isWordChar)

/-- Read a key, an equals sign and a value. -/
def readEntry (cs : List Char) : Option (Entry × List Char) := do
  let (key, cs) ← readKey cs
  match cs.dropWhile isSpace with
  | '=' :: cs =>
    let (value, cs) ← readValue (cs.dropWhile isSpace)
    return (⟨String.ofList key, value⟩, cs)
  | _ => none

/-- Read blanks, a comment and the end of the line.  The rest is missing if the
document ends there. -/
def readLineEnd (cs : List Char) : Option (Option (List Char)) :=
  let cs := match cs.dropWhile isSpace with
    | '#' :: cs => cs.dropWhile isText
    | cs => cs
  if cs.isEmpty then some none else (afterLineEnd? cs).map some

/-- Read a line, which may be empty. -/
def readLine (cs : List Char) : Option (Option Entry × Option (List Char)) :=
  let cs := cs.dropWhile isSpace
  match readLineEnd cs with
  | some rest => some (none, rest)
  | none => do
    let (entry, cs) ← readEntry cs
    return (some entry, ← readLineEnd cs)

/-- Read lines up to the end of the document. -/
def readLines (cs : List Char) : Option (List Entry) :=
  match readLine cs with
  | none => none
  | some (entry, none) => some entry.toList
  | some (entry, some rest) =>
    if _h : rest.length < cs.length then (readLines rest).map (entry.toList ++ ·) else none
termination_by cs.length

/-- The entries of a document in order.  A byte order mark may precede them. -/
def parse? (content : String) : Option (List Entry) :=
  readLines (match content.toList with
    | '\ufeff' :: cs => cs
    | cs => cs)

end Document
end Meadow.Config
