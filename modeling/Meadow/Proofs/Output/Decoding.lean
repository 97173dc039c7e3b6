import Mathlib
import Meadow.Proofs.Output.Grammar

set_option autoImplicit false

/-!
# Decoding JSON

A decoder for JSON texts (`JsonValue.decode?`).  It goes through a text from left to right,
through a string with what is expected next, and through values and members in each other to
a depth that the length of the text bounds.

Main statement: a text of a value decodes to the value (`JsonValue.IsText.decode?_eq`), so
that a text denotes one value at most (`JsonValue.IsText.unique`).
-/

namespace Meadow.JsonValue

open Config.Document (charOfCode? digit? prepend)

/-! ## Strings -/

/-- Where the reading of a string is. -/
inductive Progress where
  | text
  /-- Behind a backslash. -/
  | escape
  /-- In a character number with so many more digits, maybe behind the first half of a
  surrogate pair. -/
  | code (first : Option ℕ) (digits value : ℕ)
  /-- Behind the first half of a surrogate pair, which a character number has to follow. -/
  | half (first : ℕ)
  /-- Behind the backslash of this number. -/
  | halfEscape (first : ℕ)
  deriving DecidableEq, Repr

/-- The character of a number, or that of a surrogate pair if the first half of one
precedes the number. -/
def charOfUnits? (first : Option ℕ) (n : ℕ) : Option Char :=
  match first with
  | none => charOfCode? n
  | some m => charOfPair? m n

/-- Read a string up to its end, behind which the rest follows. -/
def readString : Progress → List Char → Option (List Char × List Char)
  | _, [] => none
  | .text, c :: cs =>
    if c = '"' then some ([], cs)
    else if c = '\\' then readString .escape cs
    else if c.toNat < 32 then none
    else prepend c (readString .text cs)
  | .escape, c :: cs =>
    if c = 'u' then readString (.code none 4 0) cs
    else
      match unescape? c with
      | none => none
      | some d => prepend d (readString .text cs)
  | .code first digits value, c :: cs =>
    match digit? 16 c with
    | none => none
    | some d =>
      let value := 16 * value + d
      if 1 < digits then readString (.code first (digits - 1) value) cs
      else if first.isNone && isFirstHalf value then readString (.half value) cs
      else
        match charOfUnits? first value with
        | none => none
        | some e => prepend e (readString .text cs)
  | .half first, c :: cs => if c = '\\' then readString (.halfEscape first) cs else none
  | .halfEscape first, c :: cs => if c = 'u' then readString (.code (some first) 4 0) cs else none

/-! ## Values -/

/-- What follows white space. -/
def skip (cs : List Char) : List Char := cs.dropWhile isSpace

/-- What follows a character, behind white space. -/
def expect (c : Char) (cs : List Char) : Option (List Char) :=
  match skip cs with
  | [] => none
  | d :: cs => if d = c then some cs else none

/-- The number that digits denote, of which only a zero alone starts with zero. -/
def numberOfDigits? (digits : List Char) : Option Nat :=
  if digits.isEmpty || (digits.head? == some '0' && 1 < digits.length) then none
  else some (Decimal.ofDigits digits)

/-- The values that have a name. -/
def constants : List (String × JsonValue) :=
  [("null", null), ("true", boolean true), ("false", boolean false)]

/-- Read a value that is neither a string nor an object. -/
def readScalar (cs : List Char) : Option (JsonValue × List Char) :=
  match numberOfDigits? (cs.takeWhile Char.isDigit) with
  | some n => some (number n, cs.dropWhile Char.isDigit)
  | none => constants.findSome? fun c => (c.1.toList.isPrefixOf? cs).map (c.2, ·)

mutual

/-- Read a value.  The number bounds how many values and members are in each other or
follow each other. -/
def readValue : Nat → List Char → Option (JsonValue × List Char)
  | 0, _ => none
  | n + 1, cs =>
    match expect '"' cs with
    | some cs => (readString .text cs).map fun r => (string (String.ofList r.1), r.2)
    | none =>
      match expect '\x7b' cs with
      | some cs => (readMembers n true cs).map fun r => (object r.1, r.2)
      | none => readScalar (skip cs)

/-- Read the members of an object up to its end, with a comma before each of them but the
first one. -/
def readMembers : Nat → Bool → List Char → Option (List (String × JsonValue) × List Char)
  | 0, _, _ => none
  | n + 1, first, cs =>
    match expect '\x7d' cs with
    | some cs => some ([], cs)
    | none => do
      let cs ← if first then some cs else expect ',' cs
      let (key, cs) ← readString .text (← expect '"' cs)
      let (value, cs) ← readValue n (← expect ':' cs)
      let (members, cs) ← readMembers n false cs
      return ((String.ofList key, value) :: members, cs)

end

/-- The value that a text is. -/
def decode? (text : String) : Option JsonValue :=
  (readValue text.length text.toList).bind fun r => if (skip r.2).isEmpty then some r.1 else none

/-! ## Reading a string -/

section Strings

variable {rest : List Char}

theorem prepend_some (c : Char) (text : List Char) :
    prepend c (some (text, rest)) = some (c :: text, rest) := rfl

/-- The digits of a character number. -/
theorem readString_code (first : Option ℕ) {ds : List Char} (hne : ds ≠ []) {value n : ℕ}
    (hn : hexFrom? value ds = some n) :
    readString (.code first ds.length value) (ds ++ rest) =
      if first.isNone && isFirstHalf n then readString (.half n) rest
      else
        match charOfUnits? first n with
        | none => none
        | some e => prepend e (readString .text rest) := by
  induction ds generalizing value with
  | nil => exact absurd rfl hne
  | cons c ds ih =>
    obtain ⟨d, hd, hrest⟩ := Option.bind_eq_some_iff.1 hn
    cases ds with
    | nil =>
      cases hrest
      simp [readString, hd]
    | cons e ds =>
      -- more digits follow, so that the reader stays in the number
      have hread := ih (List.cons_ne_nil e ds) hrest
      simpa [readString, hd] using hread

/-- Four digits of a character number. -/
theorem readString_unit (first : Option ℕ) {ds : List Char} {n : ℕ}
    (hds : codeUnit? ds = some n) :
    readString (.code first 4 0) (ds ++ rest) =
      if first.isNone && isFirstHalf n then readString (.half n) rest
      else
        match charOfUnits? first n with
        | none => none
        | some e => prepend e (readString .text rest) := by
  unfold codeUnit? at hds
  split at hds
  · next hlength =>
    have hne : ds ≠ [] := List.ne_nil_of_length_eq_add_one hlength
    rw [← hlength, readString_code first hne hds]
  · cases hds

/-- A number of a character is no half of a surrogate pair. -/
theorem isFirstHalf_eq_false {n : ℕ} {c : Char} (h : charOfCode? n = some c) :
    isFirstHalf n = false := by
  unfold Config.Document.charOfCode? at h
  split at h
  · next hvalid =>
    simp only [Nat.isValidChar] at hvalid
    simp only [isFirstHalf, Bool.and_eq_false_iff, decide_eq_false_iff_not]
    omega
  · cases h

theorem readString_number {ds : List Char} {n : ℕ} {c : Char} (hds : codeUnit? ds = some n)
    (hc : charOfCode? n = some c) :
    readString .text ('\\' :: 'u' :: (ds ++ rest)) = prepend c (readString .text rest) := by
  change readString (.code none 4 0) (ds ++ rest) = _
  rw [readString_unit none hds, isFirstHalf_eq_false hc, charOfUnits?, hc]
  rfl

theorem readString_pair {ds es : List Char} {m n : ℕ} {c : Char} (hds : codeUnit? ds = some m)
    (hm : isFirstHalf m = true) (hes : codeUnit? es = some n) (hc : charOfPair? m n = some c) :
    readString .text ('\\' :: 'u' :: (ds ++ '\\' :: 'u' :: (es ++ rest))) =
      prepend c (readString .text rest) := by
  change readString (.code none 4 0) (ds ++ '\\' :: 'u' :: (es ++ rest)) = _
  rw [readString_unit none hds, hm]
  change readString (.code (some m) 4 0) (es ++ rest) = _
  rw [readString_unit (some m) hes, charOfUnits?, hc]
  rfl

/-- A string is read from what stands for it. -/
theorem StringText.readString_eq {s t : List Char} (h : StringText s t) (rest : List Char) :
    readString .text (t ++ '"' :: rest) = some (s, rest) := by
  induction h with
  | nil => rfl
  | char hquote hbackslash hcontrol _ ih =>
    rw [List.cons_append, readString, if_neg hquote, if_neg hbackslash,
      if_neg (not_lt.2 hcontrol), ih, prepend_some]
  | @escape l c s t hc _ ih =>
    have hl : l ≠ 'u' := by
      rintro rfl
      cases hc
    simp [readString, hl, hc, ih, prepend_some]
  | number hds hc _ ih =>
    rw [List.cons_append, List.cons_append, List.append_assoc, readString_number hds hc, ih,
      prepend_some]
  | pair hds hm hes hc _ ih =>
    simp only [List.cons_append, List.append_assoc]
    rw [readString_pair hds hm hes hc, ih, prepend_some]

/-- A surrogate pair, and escape sequences for characters that need none. -/
example : readString .text "\\u0041\\uD83D\\ude00\\/\":".toList
    = some (['A', '😀', '/'], [':']) := by
  decide

end Strings

/-! ## Reading a value -/

section Values

variable {c d : Char} {a rest : List Char}

theorem skip_append (ha : Spaces a) (rest : List Char) : skip (a ++ rest) = skip rest :=
  List.dropWhile_append_of_pos ha

theorem skip_cons (h : isSpace c = false) : skip (c :: rest) = c :: rest :=
  List.dropWhile_cons_of_neg (Bool.eq_false_iff.1 h)

theorem expect_append (ha : Spaces a) (c : Char) (rest : List Char) :
    expect c (a ++ rest) = expect c rest := by
  rw [expect, expect, skip_append ha]

theorem expect_cons (h : isSpace c = false) :
    expect d (c :: rest) = if c = d then some rest else none := by
  rw [expect, skip_cons h]

theorem readValue_append (ha : Spaces a) (n : ℕ) (rest : List Char) :
    readValue n (a ++ rest) = readValue n rest := by
  cases n with
  | zero => rfl
  | succ n => rw [readValue, readValue, expect_append ha, expect_append ha, skip_append ha]

/-- White space in front of the end, or of the comma before another member. -/
theorem readMembers_append (ha : Spaces a) (n : ℕ) (rest : List Char) :
    readMembers n false (a ++ rest) = readMembers n false rest := by
  cases n with
  | zero => rfl
  | succ n =>
    rw [readMembers, readMembers, expect_append ha]
    simp only [Bool.false_eq_true, if_false, expect_append ha]

/-- What follows does not continue a number. -/
def EndsNumber (cs : List Char) : Prop := ∀ c ∈ cs.head?, c.isDigit = false

theorem endsNumber_cons (h : c.isDigit = false) : EndsNumber (c :: rest) := by
  simpa [EndsNumber] using h

theorem isDigit_eq_false_of_isSpace (h : isSpace c = true) : c.isDigit = false := by
  simp only [isSpace, Bool.or_eq_true, beq_iff_eq] at h
  obtain ((rfl | rfl) | rfl) | rfl := h <;> rfl

theorem endsNumber_append (ha : Spaces a) (h : EndsNumber rest) : EndsNumber (a ++ rest) := by
  cases a with
  | nil => exact h
  | cons c a => exact endsNumber_cons (isDigit_eq_false_of_isSpace (List.forall_mem_cons.1 ha).1)

theorem MembersText.endsNumber {members : List (String × JsonValue)} {t : List Char}
    (h : MembersText false members t) (rest : List Char) :
    EndsNumber (t ++ '\x7d' :: rest) := by
  cases h with
  | nil ha => exact endsNumber_append ha (endsNumber_cons rfl)
  | cons _ _ _ _ _ _ _ => exact endsNumber_cons rfl

/-- What starts neither a string nor an object is another value. -/
theorem readValue_scalar (n : ℕ) (hspace : isSpace c = false) (hquote : c ≠ '"')
    (hbrace : c ≠ '\x7b') : readValue (n + 1) (c :: rest) = readScalar (c :: rest) := by
  rw [readValue, expect_cons hspace, if_neg hquote, expect_cons hspace, if_neg hbrace,
    skip_cons hspace]

theorem readValue_digits {ds : List Char} (hne : ds ≠ [])
    (hdigits : ∀ c ∈ ds, c.isDigit = true) (hzero : ds.head? = some '0' → ds = ['0'])
    (hrest : EndsNumber rest) (n : ℕ) :
    readValue (n + 1) (ds ++ rest) = some (number (Decimal.ofDigits ds), rest) := by
  obtain ⟨c, cs, rfl⟩ := List.exists_cons_of_ne_nil hne
  have hc : c.isDigit = true := hdigits c List.mem_cons_self
  have hspace : isSpace c = false := by
    rw [← Bool.not_eq_true]
    intro hspace
    rw [isDigit_eq_false_of_isSpace hspace] at hc
    cases hc
  have hother (d : Char) (hd : d.isDigit = false) : c ≠ d := by
    rintro rfl
    rw [hc] at hd
    cases hd
  have hnumber : numberOfDigits? (c :: cs) = some (Decimal.ofDigits (c :: cs)) := by
    refine if_neg ?_
    rw [List.isEmpty_cons, Bool.false_or, Bool.and_eq_true, beq_iff_eq, decide_eq_true_eq]
    rintro ⟨hhead, hlength⟩
    rw [hzero hhead] at hlength
    exact absurd hlength (by decide)
  obtain ⟨htake, hdrop⟩ := Lexeme.takeWhile_append_of_forall hdigits hrest
  rw [List.cons_append, readValue_scalar n hspace (hother _ rfl) (hother _ rfl),
    ← List.cons_append, readScalar, htake, hdrop, hnumber]

theorem ValueText.ne_nil {v : JsonValue} {t : List Char} (h : ValueText v t) : t ≠ [] := by
  cases h with
  | null => decide
  | boolean b => cases b <;> decide
  | number hne _ _ => exact hne
  | string _ => exact List.cons_ne_nil _ _
  | object _ => exact List.cons_ne_nil _ _

-- The induction is on the value, not on the derivation of its text: the value tells the last
-- rule of the derivation, and the depth is only there to be no less than the length.
mutual

/-- A value is read from what stands for it. -/
theorem readValue_of_text : ∀ (v : JsonValue) (n : ℕ) {t : List Char} (rest : List Char),
    ValueText v t → t.length ≤ n → EndsNumber rest →
    readValue n (t ++ rest) = some (v, rest)
  | null, n + 1, _, _, .null, _, _ => readValue_scalar n (by decide) (by decide) (by decide)
  | boolean true, n + 1, _, _, .boolean true, _, _ =>
    readValue_scalar n (by decide) (by decide) (by decide)
  | boolean false, n + 1, _, _, .boolean false, _, _ =>
    readValue_scalar n (by decide) (by decide) (by decide)
  | number _, n + 1, _, _, .number hne hdigits hzero, _, hrest =>
    readValue_digits hne hdigits hzero hrest n
  | string s, n + 1, _, rest, .string h, _, _ => by
    rw [List.append_assoc, List.cons_append, readValue, expect_cons (by decide), if_pos rfl]
    dsimp only
    rw [List.singleton_append, h.readString_eq, Option.map_some, String.ofList_toList]
  | object members, n + 1, _, rest, .object h, hn, _ => by
    simp only [List.length_append, List.length_cons, List.length_nil] at hn
    have hmembers := readMembers_of_text members true n rest h (by omega)
    rw [List.append_assoc, List.cons_append, List.singleton_append, readValue,
      expect_cons (by decide), if_neg (by decide), expect_cons (by decide), if_pos rfl]
    dsimp only
    rw [hmembers]
    rfl
  | _, 0, _, _, h, hn, _ => absurd (List.length_eq_zero_iff.1 (Nat.le_zero.1 hn)) h.ne_nil

/-- The members of an object are read from what stands for them. -/
theorem readMembers_of_text : ∀ (members : List (String × JsonValue)) (first : Bool) (n : ℕ)
    {t : List Char} (rest : List Char), MembersText first members t → t.length < n →
    readMembers n first (t ++ '\x7d' :: rest) = some (members, rest)
  | [], first, n + 1, _, rest, .nil ha, _ => by
    rw [readMembers, expect_append ha, expect_cons (by decide), if_pos rfl]
  | (key, value) :: members, first, n + 1, _, rest, .cons ha hkey hb hc hv hd hrest, hn => by
    simp only [List.length_append, List.length_cons] at hn
    have hvalue := readValue_of_text value n _ hv (by omega)
      (endsNumber_append hd (hrest.endsNumber rest))
    have hmembers := readMembers_of_text members false n rest hrest (by omega)
    cases first <;>
      simp [readMembers, expect_append, expect_cons, isSpace, ha, hb, hc, hd, hkey.readString_eq,
        readValue_append, readMembers_append, hvalue, hmembers]

end

/-- A text of a value decodes to the value. -/
theorem IsText.decode?_eq {v : JsonValue} {text : String} (h : v.IsText text) :
    decode? text = some v := by
  obtain ⟨a, t, b, ha, ht, hb, htext⟩ := h
  have hlength : t.length ≤ text.length := by
    rw [← String.length_toList, htext, List.length_append, List.length_append]
    omega
  have hend : EndsNumber b := by
    have hnil : EndsNumber [] := by simp [EndsNumber]
    exact List.append_nil b ▸ endsNumber_append hb hnil
  have hread := readValue_of_text v text.length b ht hlength hend
  have hskip : skip b = [] := by
    have hskip := skip_append hb []
    rwa [List.append_nil] at hskip
  rw [decode?, htext, readValue_append ha, hread, Option.bind_some, hskip]
  rfl

/-- A text denotes one value at most. -/
theorem IsText.unique {v w : JsonValue} {text : String} (hv : v.IsText text)
    (hw : w.IsText text) : v = w :=
  Option.some.inj (hv.decode?_eq.symm.trans hw.decode?_eq)

end Values

end Meadow.JsonValue
