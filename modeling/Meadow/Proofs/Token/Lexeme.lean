import Mathlib
import Meadow.Token.Lexeme

set_option autoImplicit false

/-!
# Reading lexemes back

A text that spells out a sequence of pieces, with any white space around them, is read
as these pieces (`Spells.tokens_ofChars`), as long as no two operands stand side by
side: only operands can run together.
-/

namespace Meadow

/-! ## Classes of characters -/

namespace Unicode

/-- The members of the set of an inversion list with as many ends as beginnings. -/
def members : List ℕ → List ℕ
  | first :: last :: places => List.range' first (last - first) ++ members places
  | _ => []

theorem mem_members_of_member {n : ℕ} {places : List ℕ} (heven : places.length % 2 = 0)
    (h : member places n = true) : n ∈ members places := by
  match places with
  | [] => cases h
  | [_] => cases heven
  | first :: last :: places =>
    rw [members, List.mem_append, List.mem_range'_1]
    rw [member, memberFrom] at h
    split at h
    · cases h
    · unfold memberFrom at h
      split at h
      · exact Or.inl (by omega)
      · exact Or.inr (mem_members_of_member (by simp only [List.length_cons] at heven; omega) h)

theorem isAlphabetic_eq_false_of_lt {c : Char} (h : c.toNat < 0x41) : isAlphabetic c = false := by
  rw [isAlphabetic, member, alphabeticPlaces, memberFrom, if_pos h]

/-- White space has no part in a name, nor in a number. -/
theorem classes_of_isBlank {c : Char} (h : isBlank c = true) :
    isAlphabetic c = false ∧ isNumeric c = false := by
  have hmembers : ∀ n ∈ members blankPlaces,
      member alphabeticPlaces n = false ∧ member numericPlaces n = false := by decide +kernel
  exact hmembers c.toNat (mem_members_of_member rfl h)

end Unicode

namespace Lexeme

open Unicode

theorem isNamePart_eq_false_of_isBlank {c : Char} (h : isBlank c = true) :
    isNamePart c = false := by
  obtain ⟨halphabetic, hnumeric⟩ := classes_of_isBlank h
  have hunderscore : (c == '_') = false := by
    rw [beq_eq_false_iff_ne]
    rintro rfl
    exact absurd h (by decide)
  rw [isNamePart, halphabetic, hnumeric, hunderscore]
  rfl

theorem toNat_of_isDigit {c : Char} (h : c.isDigit = true) : 0x30 ≤ c.toNat ∧ c.toNat ≤ 0x39 := by
  simpa [Char.isDigit, UInt32.le_iff_toNat_le] using h

theorem isDigit_eq_false_of_isBlank {c : Char} (h : isBlank c = true) : c.isDigit = false := by
  have hmembers : ∀ n ∈ members blankPlaces, ¬ (0x30 ≤ n ∧ n ≤ 0x39) := by decide
  rw [← Bool.not_eq_true]
  exact fun hdigit => hmembers c.toNat (mem_members_of_member rfl h) (toNat_of_isDigit hdigit)

end Lexeme

/-! ## Operands -/

/-- A name: an alphabetic character and more characters of names. -/
structure Name where
  first : Char
  rest : List Char
  isAlphabetic_first : Unicode.isAlphabetic first = true
  isNamePart_rest : ∀ c ∈ rest, Lexeme.isNamePart c = true

/-- A decimal literal: digits, and perhaps a point with any number of digits behind
it. -/
structure Numeral where
  whole : List Char
  fraction : Option (List Char)
  whole_ne_nil : whole ≠ []
  isDigit_whole : ∀ c ∈ whole, c.isDigit = true
  isDigit_fraction : ∀ cs ∈ fraction, ∀ c ∈ cs, c.isDigit = true

/-- What an expression is made of. -/
inductive Operand where
  | name (n : Name)
  | numeral (n : Numeral)

namespace Numeral

/-- The characters of a literal. -/
def text (n : Numeral) : List Char :=
  match n.fraction with
  | none => n.whole
  | some cs => n.whole ++ '.' :: cs

/-- The digits behind the point. -/
def fractionDigits (n : Numeral) : List Char := n.fraction.getD []

/-- The rational that a literal denotes. -/
def value (n : Numeral) : ℚ :=
  Decimal.ofDigits n.whole + Decimal.ofDigits n.fractionDigits / 10 ^ n.fractionDigits.length

theorem ofDigits_append (cs ds : List Char) :
    Decimal.ofDigits (cs ++ ds)
      = Decimal.ofDigits cs * 10 ^ ds.length + Decimal.ofDigits ds := by
  have main (ds : List Char) (n : ℕ) :
      ds.foldl (fun n c => 10 * n + (c.toNat - '0'.toNat)) n
        = n * 10 ^ ds.length + Decimal.ofDigits ds := by
    induction ds generalizing n with
    | nil => simp [Decimal.ofDigits]
    | cons d ds ih =>
      rw [Decimal.ofDigits, List.foldl_cons, List.foldl_cons, ih, ih, List.length_cons, pow_succ]
      ring
  rw [Decimal.ofDigits, List.foldl_append]
  exact main ds _

theorem ofParts_eq_value (n : Numeral) :
    Decimal.ofParts n.whole n.fractionDigits = n.value := by
  rw [Decimal.ofParts, Rat.mkRat_eq_div, ofDigits_append, value]
  have hpow : ((Nat.pow 10 n.fractionDigits.length : ℕ) : ℚ) = 10 ^ n.fractionDigits.length :=
    Nat.cast_pow 10 _
  rw [hpow]
  push_cast
  field_simp

end Numeral

namespace Name

/-- The characters of a name. -/
def text (n : Name) : List Char := n.first :: n.rest

/-- The variable that a name stands for. -/
def var (n : Name) : String := String.ofList n.text

end Name

/-- The name that is a single letter. -/
def Name.letter (c : Char) (h : Unicode.isAlphabetic c = true) : Name :=
  ⟨c, [], h, List.forall_mem_nil _⟩

/-- The literal that is a single digit. -/
def Numeral.digit (c : Char) (h : c.isDigit = true) : Numeral where
  whole := [c]
  fraction := none
  whole_ne_nil := List.cons_ne_nil _ _
  isDigit_whole := List.forall_mem_singleton.2 h
  isDigit_fraction := by simp

/-- The literal that a natural number is written as. -/
def Numeral.ofNat (n : ℕ) : Numeral where
  whole := Nat.toDigits 10 n
  fraction := none
  whole_ne_nil := Nat.toDigits_ne_nil
  isDigit_whole _ hc := Nat.isDigit_of_mem_toDigits (Nat.succ_pos 9) le_rfl hc
  isDigit_fraction := by simp

theorem Numeral.value_ofNat (n : ℕ) : (ofNat n).value = n := by
  have hdigits : Decimal.ofDigits (Nat.toDigits 10 n) = n := Nat.ofDigitChars_ten_toDigits
  have hnone : Decimal.ofDigits [] = 0 := rfl
  rw [value]
  change ((Decimal.ofDigits (Nat.toDigits 10 n) : ℕ) : ℚ)
    + (Decimal.ofDigits [] : ℕ) / 10 ^ 0 = n
  rw [hdigits, hnone, Nat.cast_zero, zero_div, add_zero]

namespace Operand

/-- The characters of an operand. -/
def text : Operand → List Char
  | name n => n.text
  | numeral n => n.text

/-- The polynomial that an operand is. -/
def poly : Operand → Poly
  | name n => .var n.var
  | numeral n => .constant n.value

end Operand

/-! ## Pieces -/

/-- Is this a number or a name? -/
def Token.isOperand : Token → Bool
  | .operand _ => true
  | _ => false

/-- What a text is made of, apart from white space. -/
inductive Piece where
  | leftParen
  | rightParen
  | operator (op : Operator)
  | operand (o : Operand)

namespace Piece

def token : Piece → Token
  | leftParen => .leftParen
  | rightParen => .rightParen
  | operator op => .operator op
  | operand o => .operand o.poly

def text : Piece → List Char
  | leftParen => ['(']
  | rightParen => [')']
  | operator op => [op.symbol]
  | operand o => o.text

def isOperand : Piece → Bool
  | operand _ => true
  | _ => false

end Piece

/-- Characters spell out pieces: these follow each other, with any white space before,
between and behind them. -/
inductive Spells : List Piece → List Char → Prop
  | blank {bs : List Char} (hbs : ∀ c ∈ bs, Unicode.isBlank c = true) : Spells [] bs
  | piece {bs : List Char} {p : Piece} {ps : List Piece} {cs : List Char}
      (hbs : ∀ c ∈ bs, Unicode.isBlank c = true) (hcs : Spells ps cs) :
      Spells (p :: ps) (bs ++ (p.text ++ cs))

/-- Pieces can be spelled out without any white space. -/
theorem spells_flatMap (ps : List Piece) : Spells ps (ps.flatMap Piece.text) := by
  induction ps with
  | nil => exact .blank (List.forall_mem_nil _)
  | cons p ps ih => exact .piece (List.forall_mem_nil _) ih

/-- A piece directly in front of others. -/
theorem Spells.adjacent {p : Piece} {ps : List Piece} {cs : List Char} (h : Spells ps cs) :
    Spells (p :: ps) (p.text ++ cs) :=
  .piece (List.forall_mem_nil _) h

theorem isBlank_space : ∀ c ∈ [' '], Unicode.isBlank c = true :=
  List.forall_mem_singleton.2 (by decide)

/-- A piece with a space before it. -/
theorem Spells.spaced {p : Piece} {ps : List Piece} {cs : List Char} (h : Spells ps cs) :
    Spells (p :: ps) (' ' :: (p.text ++ cs)) :=
  .piece isBlank_space h

/-- No two operands stand side by side. -/
def Separated (ps : List Piece) : Prop :=
  ps.IsChain fun p q => p.isOperand = false ∨ q.isOperand = false

/-! ## Reading a piece -/

/-- What follows does not continue an operand. -/
def Breaks (cs : List Char) : Prop :=
  ∀ c ∈ cs.head?, Lexeme.isNamePart c = false ∧ c.isDigit = false ∧ c ≠ '.'

namespace Lexeme

open Unicode

theorem takeWhile_append_of_forall {p : Char → Bool} {xs ys : List Char}
    (hxs : ∀ c ∈ xs, p c = true) (hys : ∀ c ∈ ys.head?, p c = false) :
    (xs ++ ys).takeWhile p = xs ∧ (xs ++ ys).dropWhile p = ys := by
  have hrest : ys.takeWhile p = [] ∧ ys.dropWhile p = ys := by
    cases ys with
    | nil => exact ⟨rfl, rfl⟩
    | cons c ys =>
      have hc := hys c rfl
      simp [hc]
  rw [List.takeWhile_append_of_pos hxs, List.dropWhile_append_of_pos hxs, hrest.1, hrest.2,
    List.append_nil]
  exact ⟨rfl, rfl⟩

theorem read?_name (n : Name) {cs : List Char} (hcs : Breaks cs) :
    read? n.first (n.rest ++ cs) = some ⟨n.text, .operand (.var n.var)⟩ := by
  have hrest := (takeWhile_append_of_forall n.isNamePart_rest fun c hc => (hcs c hc).1).1
  rw [read?, if_pos n.isAlphabetic_first, name, hrest]
  rfl

theorem number_numeral (n : Numeral) {cs : List Char} (hcs : Breaks cs) :
    number (n.text ++ cs) = ⟨n.text, .operand (.constant n.value)⟩ := by
  have hvalue := n.ofParts_eq_value
  have hdigits : ∀ c ∈ cs.head?, c.isDigit = false := fun c hc => (hcs c hc).2.1
  cases hfraction : n.fraction with
  | none =>
    rw [Numeral.fractionDigits, hfraction, Option.getD_none] at hvalue
    have htext : n.text = n.whole := by rw [Numeral.text, hfraction]
    obtain ⟨htake, hdrop⟩ := takeWhile_append_of_forall n.isDigit_whole hdigits
    rw [htext, number, htake, hdrop]
    cases cs with
    | nil => rw [← hvalue]
    | cons c cs =>
      have hpoint : c ≠ '.' := (hcs c rfl).2.2
      split
      · next heq => exact absurd (List.cons.inj heq).1 hpoint
      · rw [← hvalue]
  | some ds =>
    rw [Numeral.fractionDigits, hfraction, Option.getD_some] at hvalue
    have htext : n.text = n.whole ++ '.' :: ds := by rw [Numeral.text, hfraction]
    have hpoint : ∀ c ∈ ('.' :: (ds ++ cs)).head?, c.isDigit = false := by simp [Char.isDigit]
    obtain ⟨htake, hdrop⟩ := takeWhile_append_of_forall n.isDigit_whole hpoint
    obtain ⟨htake', -⟩ :=
      takeWhile_append_of_forall (n.isDigit_fraction ds (by rw [hfraction]; rfl)) hdigits
    rw [htext, number, List.append_assoc, List.cons_append, htake, hdrop]
    split
    · next rest heq =>
      obtain ⟨-, rfl⟩ := List.cons.inj heq
      rw [htake']
      dsimp only
      rw [hvalue]
    · next hne => exact absurd rfl (hne _)

theorem read?_numeral (n : Numeral) {c : Char} {tail cs : List Char} (htext : n.text = c :: tail)
    (hcs : Breaks cs) : c.isDigit = true ∧
      read? c (tail ++ cs) = some ⟨n.text, .operand (.constant n.value)⟩ := by
  have hdigit : c.isDigit = true := by
    refine n.isDigit_whole c ?_
    have hwhole := n.whole_ne_nil
    cases hw : n.whole with
    | nil => exact absurd hw hwhole
    | cons d ds =>
      have hhead : n.text.head? = some d := by
        unfold Numeral.text
        split <;> rw [hw] <;> rfl
      rw [htext, List.head?_cons, Option.some.injEq] at hhead
      rw [hhead]
      exact List.mem_cons_self
  have hnumber := number_numeral n hcs
  have hlt : c.toNat < 0x41 := by
    have hbounds := toNat_of_isDigit hdigit
    omega
  rw [htext, List.cons_append] at hnumber
  rw [read?, isAlphabetic_eq_false_of_lt hlt, if_neg Bool.false_ne_true, if_pos hdigit, hnumber,
    htext]
  exact ⟨hdigit, rfl⟩

theorem read?_symbol {c : Char} {t : Token} (hlt : c.toNat < 0x41) (hdigit : c.isDigit = false)
    (ht : symbol? c = some t) (cs : List Char) : read? c cs = some ⟨[c], t⟩ := by
  rw [read?, isAlphabetic_eq_false_of_lt hlt, if_neg Bool.false_ne_true, hdigit,
    if_neg Bool.false_ne_true, ht]
  rfl

/-- A piece is read as its token, whatever follows it if it is no operand. -/
theorem read?_piece (p : Piece) {cs : List Char} (hcs : p.isOperand = true → Breaks cs) :
    ∃ c tail, p.text = c :: tail ∧ isBlank c = false ∧
      read? c (tail ++ cs) = some ⟨p.text, p.token⟩ := by
  cases p with
  | leftParen =>
    exact ⟨'(', [], rfl, by decide, read?_symbol (by decide) (by decide) rfl _⟩
  | rightParen =>
    exact ⟨')', [], rfl, by decide, read?_symbol (by decide) (by decide) rfl _⟩
  | operator op =>
    refine ⟨op.symbol, [], rfl, ?_, ?_⟩
    · cases op <;> decide
    · cases op <;> exact read?_symbol (by decide) (by decide) rfl _
  | operand o =>
    cases o with
    | name n =>
      refine ⟨n.first, n.rest, rfl, ?_, read?_name n (hcs rfl)⟩
      rw [← Bool.not_eq_true]
      intro hblank
      have halphabetic := n.isAlphabetic_first
      rw [(classes_of_isBlank hblank).1] at halphabetic
      cases halphabetic
    | numeral n =>
      obtain ⟨c, tail, htext⟩ : ∃ c tail, n.text = c :: tail := by
        refine List.exists_cons_of_ne_nil fun hnil => n.whole_ne_nil ?_
        unfold Numeral.text at hnil
        split at hnil
        · exact hnil
        · exact (List.append_eq_nil_iff.1 hnil).1
      obtain ⟨hdigit, hread⟩ := read?_numeral n htext (hcs rfl)
      refine ⟨c, tail, htext, ?_, hread⟩
      rw [← Bool.not_eq_true]
      intro hblank
      rw [isDigit_eq_false_of_isBlank hblank] at hdigit
      cases hdigit

end Lexeme

/-! ## Reading a text -/

/-- A text that starts with white space or with no operand does not continue one. -/
theorem Spells.breaks {ps : List Piece} {cs : List Char} (h : Spells ps cs)
    (hps : ∀ p ∈ ps.head?, p.isOperand = false) : Breaks cs := by
  have hblank {c : Char} (hc : Unicode.isBlank c = true) :
      Lexeme.isNamePart c = false ∧ c.isDigit = false ∧ c ≠ '.' := by
    refine ⟨Lexeme.isNamePart_eq_false_of_isBlank hc, Lexeme.isDigit_eq_false_of_isBlank hc, ?_⟩
    rintro rfl
    exact absurd hc (by decide)
  intro c hc
  cases h with
  | blank hbs => exact hblank (hbs c (List.mem_of_mem_head? hc))
  | @piece bs p ps cs hbs hcs =>
    cases bs with
    | cons b bs =>
      rw [List.cons_append, List.head?_cons, Option.mem_some_iff] at hc
      rw [← hc]
      exact hblank (hbs b List.mem_cons_self)
    | nil =>
      have hp := hps p rfl
      cases p with
      | leftParen =>
        cases hc
        decide +kernel
      | rightParen =>
        cases hc
        decide +kernel
      | operator op =>
        cases hc
        cases op <;> decide +kernel
      | operand o => cases hp

/-- A text that spells out pieces is read as their tokens. -/
theorem Spells.tokens_ofChars {ps : List Piece} {cs : List Char} (h : Spells ps cs)
    (hps : Separated ps) (position : ℕ) :
    (Lexing.ofChars position cs).tokens = ps.map Piece.token ∧
      (Lexing.ofChars position cs).invalid = none := by
  induction h generalizing position with
  | @blank bs hbs =>
    have hdrop : bs.dropWhile Unicode.isBlank = [] := List.dropWhile_eq_nil_iff.2 hbs
    unfold Lexing.ofChars
    split
    · exact ⟨rfl, rfl⟩
    · next heq =>
      rw [hdrop] at heq
      cases heq
  | @piece bs p ps cs hbs hcs ih =>
    obtain ⟨hhead, htail⟩ := List.isChain_cons.1 hps
    have hbreaks : p.isOperand = true → Breaks cs := fun hp => hcs.breaks fun q hq =>
      (hhead q hq).resolve_left (by rw [hp]; exact Bool.true_eq_false.mp)
    obtain ⟨c, tail, htext, hblank, hread⟩ := Lexeme.read?_piece p hbreaks
    have hdrop : (bs ++ (p.text ++ cs)).dropWhile Unicode.isBlank = c :: (tail ++ cs) := by
      rw [List.dropWhile_append_of_pos hbs, htext, List.cons_append, List.dropWhile_cons_of_neg]
      rw [hblank]
      exact Bool.false_ne_true
    unfold Lexing.ofChars
    split
    · next heq =>
      rw [hdrop] at heq
      cases heq
    · next d rest heq =>
      rw [hdrop] at heq
      cases heq
      dsimp only
      split
      · next hnone =>
        rw [hread] at hnone
        cases hnone
      · next l hl =>
        rw [hread] at hl
        cases hl
        have hrest : (c :: (tail ++ cs)).drop p.text.length = cs := by
          rw [← List.cons_append, ← htext, List.drop_left]
        dsimp only
        rw [hrest]
        obtain ⟨htokens, hinvalid⟩ := ih htail
          (position + (List.takeWhile Unicode.isBlank (bs ++ (p.text ++ cs))).length
            + p.text.length)
        refine ⟨?_, hinvalid⟩
        rw [Lexing.tokens, List.map_cons, List.map_cons, ← htokens, Lexing.tokens]

end Meadow
