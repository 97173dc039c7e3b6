import Mathlib
import Meadow.Config.Document
import Meadow.Output.JsonValue
import Meadow.Proofs.Token.Lexeme

set_option autoImplicit false

/-!
# The grammar of JSON

Which texts denote a value is a matter of grammar (`JsonValue.IsText`), whoever writes or
reads them: white space may stand between the parts of a text, a character of a string may be
escaped in several ways, as the two halves of a surrogate pair among them, and members are
separated by single commas.  Arrays are left out, and numbers with a sign, a fraction or an
exponent: no `JsonValue` is denoted by them.

Main statements: what a value is written as is a text of the value (`JsonValue.isText_render`),
and it has no control characters (`JsonValue.printable_chars`).
-/

namespace Meadow.JsonValue

open Config.Document (charOfCode? digit?)

/-! ## Texts -/

/-- White space between the parts of a text. -/
def isSpace (c : Char) : Bool := c == ' ' || c == '\t' || c == '\n' || c == '\r'

/-- Nothing but white space. -/
def Spaces (cs : List Char) : Prop := ∀ c ∈ cs, isSpace c = true

/-- The character that a letter behind a backslash stands for. -/
def unescape? : Char → Option Char
  | '"' => some '"'
  | '\\' => some '\\'
  | '/' => some '/'
  | 'b' => some '\x08'
  | 'f' => some '\x0c'
  | 'n' => some '\n'
  | 'r' => some '\r'
  | 't' => some '\t'
  | _ => none

/-- The number that hexadecimal digits behind those of another number make with it. -/
def hexFrom? (n : ℕ) : List Char → Option ℕ
  | [] => some n
  | c :: cs => (digit? 16 c).bind fun d => hexFrom? (16 * n + d) cs

/-- The number of four hexadecimal digits. -/
def codeUnit? (ds : List Char) : Option ℕ := if ds.length = 4 then hexFrom? 0 ds else none

/-- Is a number the first half of a surrogate pair? -/
def isFirstHalf (n : ℕ) : Bool := 0xd800 ≤ n && n < 0xdc00

/-- The character of a surrogate pair, of which the first half is given. -/
def charOfPair? (first second : ℕ) : Option Char :=
  if 0xdc00 ≤ second ∧ second < 0xe000 then
    charOfCode? (0x10000 + 0x400 * (first - 0xd800) + (second - 0xdc00))
  else none

/-- What stands between the quotes for characters. -/
inductive StringText : List Char → List Char → Prop
  | nil : StringText [] []
  | char {c : Char} {s t : List Char} (hquote : c ≠ '"') (hbackslash : c ≠ '\\')
      (hcontrol : 32 ≤ c.toNat) (h : StringText s t) : StringText (c :: s) (c :: t)
  | escape {l c : Char} {s t : List Char} (hc : unescape? l = some c) (h : StringText s t) :
      StringText (c :: s) ('\\' :: l :: t)
  | number {ds : List Char} {n : ℕ} {c : Char} {s t : List Char} (hds : codeUnit? ds = some n)
      (hc : charOfCode? n = some c) (h : StringText s t) :
      StringText (c :: s) ('\\' :: 'u' :: (ds ++ t))
  | pair {ds es : List Char} {m n : ℕ} {c : Char} {s t : List Char}
      (hds : codeUnit? ds = some m) (hm : isFirstHalf m = true) (hes : codeUnit? es = some n)
      (hc : charOfPair? m n = some c) (h : StringText s t) :
      StringText (c :: s) ('\\' :: 'u' :: (ds ++ '\\' :: 'u' :: (es ++ t)))

mutual

/-- What stands for a value, without white space around it. -/
inductive ValueText : JsonValue → List Char → Prop
  | null : ValueText null "null".toList
  | boolean (b : Bool) : ValueText (boolean b) (if b then "true" else "false").toList
  | number {ds : List Char} (hne : ds ≠ []) (hdigits : ∀ c ∈ ds, c.isDigit = true)
      (hzero : ds.head? = some '0' → ds = ['0']) : ValueText (number (Decimal.ofDigits ds)) ds
  | string {s : String} {t : List Char} (h : StringText s.toList t) :
      ValueText (string s) ('"' :: t ++ ['"'])
  | object {members : List (String × JsonValue)} {t : List Char}
      (h : MembersText true members t) : ValueText (object members) ('\x7b' :: t ++ ['\x7d'])

/-- What stands for the members of an object between its braces, with a comma before each of
them but the first one. -/
inductive MembersText : Bool → List (String × JsonValue) → List Char → Prop
  | nil {first : Bool} {a : List Char} (ha : Spaces a) : MembersText first [] a
  | cons {first : Bool} {key : String} {v : JsonValue} {members : List (String × JsonValue)}
      {a t b c u d rest : List Char} (ha : Spaces a) (hkey : StringText key.toList t)
      (hb : Spaces b) (hc : Spaces c) (hv : ValueText v u) (hd : Spaces d)
      (hrest : MembersText false members rest) :
      MembersText first ((key, v) :: members)
        ((if first then [] else [',']) ++ (a ++ '"' :: (t ++ '"' :: (b ++ ':' :: (c ++ (u ++
          (d ++ rest)))))))

end

/-- A text denotes a value. -/
def IsText (v : JsonValue) (text : String) : Prop :=
  ∃ a t b, Spaces a ∧ ValueText v t ∧ Spaces b ∧ text.toList = a ++ (t ++ b)

/-! ## What is written -/

theorem spaces_nil : Spaces [] := List.forall_mem_nil _

/-- A character as it is written in a string. -/
theorem StringText.escapeChar {s t : List Char} (h : StringText s t) (c : Char) :
    StringText (c :: s) (escapeChar c ++ t) := by
  unfold JsonValue.escapeChar
  split_ifs with hquote hbackslash hlf hcr htab hbs hff hcontrol
  · subst hquote; exact .escape rfl h
  · subst hbackslash; exact .escape rfl h
  · subst hlf; exact .escape rfl h
  · subst hcr; exact .escape rfl h
  · subst htab; exact .escape rfl h
  · subst hbs; exact .escape rfl h
  · subst hff; exact .escape rfl h
  · -- the numbers below 32 have two digits, and are no halves of surrogate pairs
    have hdigit : ∀ n < 16, digit? 16 (Nat.digitChar n) = some n := by decide
    have hzero : digit? 16 '0' = some 0 := by decide
    have hvalue : 16 * (c.toNat / 16) + c.toNat % 16 = c.toNat := Nat.div_add_mod ..
    have hunit : codeUnit? ['0', '0', Nat.digitChar (c.toNat / 16),
        Nat.digitChar (c.toNat % 16)] = some c.toNat := by
      simp [codeUnit?, hexFrom?, hzero, hdigit (c.toNat / 16) (by omega),
        hdigit (c.toNat % 16) (by omega), hvalue]
    have hchar : charOfCode? c.toNat = some c := by
      have hvalid : c.toNat.isValidChar := c.valid
      rw [charOfCode?, if_pos hvalid, Char.ofNat_toNat]
    exact .number hunit hchar h
  · exact .char hquote hbackslash (not_lt.1 hcontrol) h

theorem stringText_flatMap (s : List Char) : StringText s (s.flatMap escapeChar) := by
  induction s with
  | nil => exact .nil
  | cons c s ih => exact ih.escapeChar c

/-- Only zero is written with a zero in front. -/
theorem head?_toDigits {n : ℕ} (hn : 0 < n) : (Nat.toDigits 10 n).head? ≠ some '0' := by
  induction n using Nat.strongRecOn with
  | ind n ih =>
    by_cases hlt : n < 10
    · rw [Nat.toDigits_of_lt_base hlt]
      interval_cases n <;> decide
    · have hne : Nat.toDigits 10 (n / 10) ≠ [] := Nat.toDigits_ne_nil
      rw [Nat.toDigits_of_base_le (by omega) (by omega), List.head?_append_of_ne_nil _ hne]
      exact ih (n / 10) (by omega) (by omega)

theorem valueText_toDigits (n : ℕ) : ValueText (number n) (Nat.toDigits 10 n) := by
  have hvalue : Decimal.ofDigits (Nat.toDigits 10 n) = n := Nat.ofDigitChars_ten_toDigits
  have hdigits : ∀ c ∈ Nat.toDigits 10 n, c.isDigit = true := fun _ hc =>
    Nat.isDigit_of_mem_toDigits (by omega) le_rfl hc
  have hzero : (Nat.toDigits 10 n).head? = some '0' → Nat.toDigits 10 n = ['0'] := by
    obtain rfl | hn := n.eq_zero_or_pos
    · exact fun _ => by decide
    · exact fun h => absurd h (head?_toDigits hn)
  have htext := ValueText.number Nat.toDigits_ne_nil hdigits hzero
  rwa [hvalue] at htext

mutual

theorem valueText_chars : ∀ v : JsonValue, ValueText v v.chars
  | null => .null
  | boolean b => .boolean b
  | number n => valueText_toDigits n
  | string s => .string (stringText_flatMap s.toList)
  | object members => .object (membersText_memberChars members true)

theorem membersText_memberChars : ∀ (members : List (String × JsonValue)) (first : Bool),
    MembersText first members (memberChars first members)
  | [], _ => .nil spaces_nil
  | (key, value) :: members, first => by
    have htext : MembersText first ((key, value) :: members) _ :=
      .cons spaces_nil (stringText_flatMap key.toList) spaces_nil spaces_nil
        (valueText_chars value) spaces_nil (membersText_memberChars members false)
    simpa [memberChars, quote] using htext

end

/-- What a value is written as is a text of the value. -/
theorem isText_render (v : JsonValue) : v.IsText v.render :=
  ⟨[], v.chars, [], spaces_nil, valueText_chars v, spaces_nil, by simp [render]⟩

/-! ## Control characters -/

/-- No character that is written is a control character below U+0020. -/
def Printable (cs : List Char) : Prop := ∀ c ∈ cs, 32 ≤ c.toNat

theorem printable_append {cs ds : List Char} :
    Printable (cs ++ ds) ↔ Printable cs ∧ Printable ds :=
  List.forall_mem_append

theorem printable_cons {c : Char} {cs : List Char} :
    Printable (c :: cs) ↔ 32 ≤ c.toNat ∧ Printable cs :=
  List.forall_mem_cons

theorem printable_escapeChar (c : Char) : Printable (escapeChar c) := by
  have hdigit : ∀ n < 16, 32 ≤ (Nat.digitChar n).toNat := by decide
  unfold escapeChar
  split_ifs with _ _ _ _ _ _ _ hcontrol
  -- a number and a character that stays as it is, behind the seven letters
  rotate_left 7
  · have hhigh := hdigit (c.toNat / 16) (by omega)
    have hlow := hdigit (c.toNat % 16) (by omega)
    simp [Printable, hhigh, hlow]
  · simpa [Printable] using hcontrol
  all_goals simp [Printable]

theorem printable_quote (s : String) : Printable (quote s) := by
  rw [quote, List.cons_append, printable_cons, printable_append]
  refine ⟨by decide, ?_, by simp [Printable]⟩
  intro c hc
  obtain ⟨d, -, hcd⟩ := List.mem_flatMap.1 hc
  exact printable_escapeChar d c hcd

mutual

theorem printable_chars : ∀ v : JsonValue, Printable v.chars
  | null | boolean true | boolean false => by simp [chars, Printable]
  | number n => fun c hc => by
    have := Lexeme.toNat_of_isDigit (Nat.isDigit_of_mem_toDigits (by omega) le_rfl hc)
    omega
  | string s => printable_quote s
  | object members => by
    rw [chars, List.cons_append, printable_cons, printable_append]
    exact ⟨by decide, printable_memberChars members true, by simp [Printable]⟩

theorem printable_memberChars :
    ∀ (members : List (String × JsonValue)) (first : Bool), Printable (memberChars first members)
  | [], _ => List.forall_mem_nil _
  | (key, value) :: members, first => by
    have hcomma : Printable (if first then [] else [',']) := by cases first <;> simp [Printable]
    rw [memberChars, List.append_assoc, List.append_assoc, List.cons_append, printable_append,
      printable_append, printable_cons, printable_append]
    exact ⟨hcomma, printable_quote key, by decide, printable_chars value,
      printable_memberChars members false⟩

end

/-- What is written is a single line. -/
theorem not_mem_toList_render (v : JsonValue) : '\n' ∉ v.render.toList := by
  rw [render, String.toList_ofList]
  exact fun hmem => absurd (printable_chars v '\n' hmem) (by decide)

end Meadow.JsonValue
