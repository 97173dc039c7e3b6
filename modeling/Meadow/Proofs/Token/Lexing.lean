import Mathlib
import Meadow.Proofs.Token.Lexeme

set_option autoImplicit false

/-!
# What a lexer yields

A lexer takes items from a text one at a time: it skips white space, then reads a name, a
number or a single character, and an item that is no token is its last one.  A number goes
through the reader of decimal literals, which might refuse it.

The items are those of a lexing (`Cursor.yields_ofChars`).  Nothing of the text is lost: its
pieces, each the longest one at its place, and white space around them make up the text, up
to a character that starts no piece (`Lexing.ofString_lossless`).
-/

namespace Meadow

/-! ## Longest pieces -/

/-- The lexeme that a piece is read as. -/
def Piece.lexeme (p : Piece) : Lexeme := ⟨p.text, p.token⟩

/-- The piece stands at the start of the characters, and no longer one does. -/
structure Piece.LongestAt (p : Piece) (cs : List Char) : Prop where
  isPrefix : p.text <+: cs
  length_le : ∀ q : Piece, q.text <+: cs → q.text.length ≤ p.text.length

/-- A prefix all of a class reaches no further than the longest stretch of that class. -/
theorem isPrefix_takeWhile {p : Char → Bool} {xs cs : List Char} (h : xs <+: cs)
    (hxs : ∀ c ∈ xs, p c = true) : xs <+: cs.takeWhile p := by
  obtain ⟨ys, rfl⟩ := h
  rw [List.takeWhile_append_of_pos hxs]
  exact List.prefix_append _ _

namespace Numeral

/-- A literal starts with a digit. -/
theorem exists_text_eq_cons (n : Numeral) : ∃ c tail, n.text = c :: tail ∧ c.isDigit = true := by
  obtain ⟨c, tail, hwhole⟩ := List.exists_cons_of_ne_nil n.whole_ne_nil
  have hdigit : c.isDigit = true := n.isDigit_whole c (by rw [hwhole]; exact List.mem_cons_self)
  unfold text
  split
  · exact ⟨c, tail, hwhole, hdigit⟩
  · next cs _ => exact ⟨c, tail ++ '.' :: cs, by rw [hwhole, List.cons_append], hdigit⟩

theorem value_eq_div (n : Numeral) :
    n.value = Decimal.ofDigits (n.whole ++ n.fractionDigits) / 10 ^ n.fractionDigits.length := by
  rw [value, ofDigits_append]
  push_cast
  field_simp

/-- Every literal is accepted by the reader of decimals. -/
theorem value?_text (n : Numeral) : Decimal.value? n.text = some n.value := by
  have hwhole : n.whole.isEmpty = false := List.isEmpty_eq_false_iff.2 n.whole_ne_nil
  rw [← n.ofParts_eq_value, Decimal.value?]
  cases hfraction : n.fraction with
  | none =>
    have htext : n.text = n.whole := by rw [text, hfraction]
    have hend : ∀ c ∈ ([] : List Char).head?, c.isDigit = false := by simp
    obtain ⟨htake, hdrop⟩ := Lexeme.takeWhile_append_of_forall n.isDigit_whole hend
    rw [List.append_nil] at htake hdrop
    rw [htext, htake, hdrop, hwhole, fractionDigits, hfraction]
    rfl
  | some ds =>
    have htext : n.text = n.whole ++ '.' :: ds := by rw [text, hfraction]
    have hpoint : ∀ c ∈ ('.' :: ds).head?, c.isDigit = false := by simp [Char.isDigit]
    obtain ⟨htake, hdrop⟩ := Lexeme.takeWhile_append_of_forall n.isDigit_whole hpoint
    have hds : ds.all Char.isDigit = true :=
      List.all_eq_true.2 (n.isDigit_fraction ds (by rw [hfraction]; rfl))
    rw [htext, htake, hdrop, hwhole, fractionDigits, hfraction]
    simp [hds]

end Numeral

namespace Lexeme

open Unicode

/-- What is read as a name is one, and the longest. -/
theorem exists_name {c : Char} (hc : isAlphabetic c = true) (cs : List Char) :
    ∃ n : Name, name c cs = (Piece.operand (.name n)).lexeme ∧ n.text <+: c :: cs ∧
      ∀ m : Name, m.text <+: c :: cs → m.text.length ≤ n.text.length := by
  refine ⟨⟨c, cs.takeWhile isNamePart, hc, fun d hd => List.mem_takeWhile_imp hd⟩, rfl,
    List.cons_prefix_cons.2 ⟨rfl, List.takeWhile_prefix _⟩, fun m hm => ?_⟩
  have hrest := isPrefix_takeWhile (List.cons_prefix_cons.1 hm).2 m.isNamePart_rest
  exact Nat.succ_le_succ hrest.length_le

/-- Where a literal stands, its digits before the point are digits of the text, all of them
if there is a point. -/
theorem takeWhile_isDigit_of_isPrefix {m : Numeral} {cs : List Char} (h : m.text <+: cs) :
    m.fraction = none ∧ m.text <+: cs.takeWhile Char.isDigit ∨
      ∃ ds rest, m.fraction = some ds ∧ cs.takeWhile Char.isDigit = m.whole ∧
        cs.dropWhile Char.isDigit = '.' :: (ds ++ rest) := by
  cases hfraction : m.fraction with
  | none =>
    have htext : m.text = m.whole := by rw [Numeral.text, hfraction]
    refine Or.inl ⟨rfl, isPrefix_takeWhile h ?_⟩
    rw [htext]
    exact m.isDigit_whole
  | some ds =>
    obtain ⟨rest, rfl⟩ := h
    have htext : m.text = m.whole ++ '.' :: ds := by rw [Numeral.text, hfraction]
    have hpoint : ∀ c ∈ ('.' :: (ds ++ rest)).head?, c.isDigit = false := by simp [Char.isDigit]
    obtain ⟨htake, hdrop⟩ := takeWhile_append_of_forall m.isDigit_whole hpoint
    rw [htext, List.append_assoc, List.cons_append]
    exact Or.inr ⟨ds, rest, rfl, htake, hdrop⟩

/-- What is read as a number is a literal, and the longest. -/
theorem exists_numeral {c : Char} (hc : c.isDigit = true) (cs : List Char) :
    ∃ n : Numeral, number (c :: cs) = (Piece.operand (.numeral n)).lexeme ∧ n.text <+: c :: cs ∧
      ∀ m : Numeral, m.text <+: c :: cs → m.text.length ≤ n.text.length := by
  have hwhole : (c :: cs).takeWhile Char.isDigit ≠ [] := by simp [hc]
  have hdigits : ∀ d ∈ (c :: cs).takeWhile Char.isDigit, d.isDigit = true :=
    fun d hd => List.mem_takeWhile_imp hd
  have hsplit := (List.takeWhile_append_dropWhile (p := Char.isDigit) (l := c :: cs)).symm
  unfold number
  split
  · next rest hdrop =>
    let n : Numeral := ⟨_, some (rest.takeWhile Char.isDigit), hwhole, hdigits, by
      rintro ds ⟨⟩ d hd
      exact List.mem_takeWhile_imp hd⟩
    refine ⟨n, ?_, ?_, fun m hm => List.IsPrefix.length_le ?_⟩
    · rw [Piece.lexeme, Piece.token, Operand.poly, ← n.ofParts_eq_value]
      rfl
    · rw [hdrop] at hsplit
      rw [hsplit]
      exact (List.prefix_append_right_inj _).2
        (List.cons_prefix_cons.2 ⟨rfl, List.takeWhile_prefix _⟩)
    · rcases takeWhile_isDigit_of_isPrefix hm with ⟨-, hm⟩ | ⟨ds, rest', hds, htake, hdrop'⟩
      · exact hm.trans (List.prefix_append _ _)
      · rw [hdrop, List.cons.injEq] at hdrop'
        have hprefix : ds <+: rest.takeWhile Char.isDigit :=
          isPrefix_takeWhile ⟨rest', hdrop'.2.symm⟩ (m.isDigit_fraction ds hds)
        have htext : m.text = (c :: cs).takeWhile Char.isDigit ++ '.' :: ds := by
          rw [Numeral.text, hds, htake]
        rw [htext]
        exact (List.prefix_append_right_inj _).2 (List.cons_prefix_cons.2 ⟨rfl, hprefix⟩)
  · next hdrop =>
    let n : Numeral := ⟨_, none, hwhole, hdigits, by simp⟩
    refine ⟨n, ?_, List.takeWhile_prefix _, fun m hm => ?_⟩
    · rw [Piece.lexeme, Piece.token, Operand.poly, ← n.ofParts_eq_value]
      rfl
    · rcases takeWhile_isDigit_of_isPrefix hm with ⟨-, hm⟩ | ⟨ds, rest', -, -, hdrop'⟩
      · exact hm.length_le
      · exact absurd hdrop' (hdrop _)

/-- The first character of a piece tells what kind of piece it is. -/
theorem kind_of_isPrefix {p : Piece} {c : Char} {cs : List Char} (h : p.text <+: c :: cs) :
    (isAlphabetic c = true ∧ ∃ n, p = .operand (.name n)) ∨
      (c.isDigit = true ∧ ∃ n, p = .operand (.numeral n)) ∨
      (symbol? c = some p.token ∧ p.text = [c]) := by
  cases p with
  | leftParen =>
    obtain ⟨rfl, -⟩ := List.cons_prefix_cons.1 h
    exact Or.inr (Or.inr ⟨rfl, rfl⟩)
  | rightParen =>
    obtain ⟨rfl, -⟩ := List.cons_prefix_cons.1 h
    exact Or.inr (Or.inr ⟨rfl, rfl⟩)
  | operator op =>
    obtain ⟨rfl, -⟩ := List.cons_prefix_cons.1 h
    exact Or.inr (Or.inr ⟨by cases op <;> rfl, rfl⟩)
  | operand o =>
    cases o with
    | name n =>
      obtain ⟨rfl, -⟩ := List.cons_prefix_cons.1 h
      exact Or.inl ⟨n.isAlphabetic_first, n, rfl⟩
    | numeral n =>
      obtain ⟨d, tail, htext, hdigit⟩ := n.exists_text_eq_cons
      change n.text <+: c :: cs at h
      rw [htext] at h
      obtain ⟨rfl, -⟩ := List.cons_prefix_cons.1 h
      exact Or.inr (Or.inl ⟨hdigit, n, rfl⟩)

theorem exists_symbol {c : Char} {t : Token} (h : symbol? c = some t) :
    ∃ p : Piece, p.lexeme = ⟨[c], t⟩ := by
  unfold symbol? at h
  split at h
  · next hc =>
    cases h
    exact ⟨.leftParen, by rw [hc]; rfl⟩
  · split at h
    · next hc =>
      cases h
      exact ⟨.rightParen, by rw [hc]; rfl⟩
    · obtain ⟨op, hop, rfl⟩ := Option.map_eq_some_iff.1 h
      refine ⟨.operator op, ?_⟩
      have hc : op.symbol = c := by
        unfold Operator.ofChar? at hop
        split at hop <;> cases hop <;> rfl
      rw [← hc]
      rfl

theorem isDigit_eq_false_of_isAlphabetic {c : Char} (h : isAlphabetic c = true) :
    c.isDigit = false := by
  rw [← Bool.not_eq_true]
  intro hdigit
  have hlt := (toNat_of_isDigit hdigit).2
  rw [isAlphabetic_eq_false_of_lt (by omega)] at h
  cases h

/-- What is read is the longest piece that the characters start with. -/
theorem exists_longest_of_read? {c : Char} {cs : List Char} {l : Lexeme}
    (h : read? c cs = some l) : ∃ p : Piece, l = p.lexeme ∧ p.LongestAt (c :: cs) := by
  unfold read? at h
  split at h
  · next hc =>
    cases h
    obtain ⟨n, hn, hprefix, hlongest⟩ := exists_name hc cs
    refine ⟨_, hn, hprefix, fun q hq => ?_⟩
    rcases kind_of_isPrefix hq with ⟨-, m, rfl⟩ | ⟨hdigit, -⟩ | ⟨-, htext⟩
    · exact hlongest m hq
    · rw [isDigit_eq_false_of_isAlphabetic hc] at hdigit
      cases hdigit
    · rw [htext]
      exact Nat.succ_le_succ (Nat.zero_le _)
  · next hc =>
    split at h
    · next hdigit =>
      cases h
      obtain ⟨n, hn, hprefix, hlongest⟩ := exists_numeral hdigit cs
      refine ⟨_, hn, hprefix, fun q hq => ?_⟩
      rcases kind_of_isPrefix hq with ⟨halphabetic, -⟩ | ⟨-, m, rfl⟩ | ⟨-, htext⟩
      · exact absurd halphabetic hc
      · exact hlongest m hq
      · obtain ⟨d, tail, hn', -⟩ := n.exists_text_eq_cons
        rw [htext, Piece.text, Operand.text, hn']
        exact Nat.succ_le_succ (Nat.zero_le _)
    · next hdigit =>
      obtain ⟨t, ht, rfl⟩ := Option.map_eq_some_iff.1 h
      obtain ⟨p, hp⟩ := exists_symbol ht
      have htext : p.text = [c] := congrArg Lexeme.text hp
      refine ⟨p, hp.symm, ?_, fun q hq => ?_⟩
      · rw [htext]
        exact List.cons_prefix_cons.2 ⟨rfl, List.nil_prefix⟩
      · rcases kind_of_isPrefix hq with ⟨halphabetic, -⟩ | ⟨hdigit', -⟩ | ⟨-, hq⟩
        · exact absurd halphabetic hc
        · exact absurd hdigit' hdigit
        · rw [hq, htext]

/-- Where nothing is read, no piece starts. -/
theorem not_isPrefix_of_read?_eq_none {c : Char} {cs : List Char} (h : read? c cs = none)
    (p : Piece) : ¬ p.text <+: c :: cs := by
  intro hp
  unfold read? at h
  split at h
  · cases h
  · next hc =>
    split at h
    · cases h
    · next hdigit =>
      rw [Option.map_eq_none_iff] at h
      rcases kind_of_isPrefix hp with ⟨halphabetic, -⟩ | ⟨hdigit', -⟩ | ⟨hsymbol, -⟩
      · exact hc halphabetic
      · exact hdigit hdigit'
      · rw [hsymbol] at h
        cases h

end Lexeme

/-! ## The text that is read -/

/-- Pieces make up characters that others follow: each is the longest one at its place, with
any white space before, between and behind them. -/
inductive Covers (rest : List Char) : List Piece → List Char → Prop
  | blank {bs : List Char} (hbs : ∀ c ∈ bs, Unicode.isBlank c = true) : Covers rest [] bs
  | piece {bs : List Char} {p : Piece} {ps : List Piece} {cs : List Char}
      (hbs : ∀ c ∈ bs, Unicode.isBlank c = true) (hp : p.LongestAt (p.text ++ (cs ++ rest)))
      (hcs : Covers rest ps cs) : Covers rest (p :: ps) (bs ++ (p.text ++ cs))

/-- How the reading of a text ends behind so many characters: with the text, or before a
character that is no white space and starts no piece. -/
inductive Ends : ℕ → List Char → Option InvalidCharacter → Prop
  | whole (position : ℕ) : Ends position [] none
  | invalid (position : ℕ) {c : Char} {cs : List Char} (hblank : Unicode.isBlank c = false)
      (hpiece : ∀ p : Piece, ¬ p.text <+: c :: cs) :
      Ends position (c :: cs) (some ⟨c, position⟩)

theorem Piece.length_text_pos (p : Piece) : 0 < p.text.length := by
  cases p with
  | leftParen => exact Nat.one_pos
  | rightParen => exact Nat.one_pos
  | operator op => exact Nat.one_pos
  | operand o =>
    cases o with
    | name n => exact Nat.succ_pos _
    | numeral n =>
      obtain ⟨c, tail, htext, -⟩ := n.exists_text_eq_cons
      rw [text, Operand.text, htext]
      exact Nat.succ_pos _

/-- There are not more pieces than characters. -/
theorem Covers.length_le {rest : List Char} {ps : List Piece} {cs : List Char}
    (h : Covers rest ps cs) : ps.length ≤ cs.length := by
  induction h with
  | blank hbs => exact Nat.zero_le _
  | @piece bs p ps cs hbs hp hcs ih =>
    have hpos := p.length_text_pos
    rw [List.length_append, List.length_append, List.length_cons]
    omega

namespace Lexing

/-- The pieces of a text cover it up to where the reading ends. -/
theorem covers_ofChars (position : ℕ) (cs : List Char) :
    ∃ ps read rest, cs = read ++ rest ∧ (ofChars position cs).lexemes = ps.map Piece.lexeme ∧
      Covers rest ps read ∧ Ends (position + read.length) rest (ofChars position cs).invalid := by
  induction hn : cs.length using Nat.strong_induction_on generalizing position cs with
  | _ n ih =>
    subst hn
    have hsplit := (List.takeWhile_append_dropWhile (p := Unicode.isBlank) (l := cs)).symm
    have hblanks : ∀ c ∈ cs.takeWhile Unicode.isBlank, Unicode.isBlank c = true :=
      fun c hc => List.mem_takeWhile_imp hc
    unfold ofChars
    split
    · next hdrop =>
      rw [hdrop, List.append_nil] at hsplit
      exact ⟨[], cs, [], (List.append_nil _).symm, rfl, .blank (hsplit ▸ hblanks), .whole _⟩
    · next c rest hdrop =>
      rw [hdrop] at hsplit
      dsimp only
      split
      · next hnone =>
        have hblank : Unicode.isBlank c = false := by
          have hhead := List.head?_dropWhile_not Unicode.isBlank cs
          rwa [hdrop] at hhead
        exact ⟨[], _, c :: rest, hsplit, rfl, .blank hblanks,
          .invalid _ hblank (Lexeme.not_isPrefix_of_read?_eq_none hnone)⟩
      · next l hl =>
        obtain ⟨p, rfl, hp⟩ := Lexeme.exists_longest_of_read? hl
        obtain ⟨tail, htail⟩ := hp.isPrefix
        have hlt : tail.length < cs.length := by
          have hpos := p.length_text_pos
          rw [hsplit, ← htail, List.length_append, List.length_append]
          omega
        have hdropText : (c :: rest).drop p.lexeme.text.length = tail := by
          rw [← htail]
          exact List.drop_left
        dsimp only
        rw [hdropText]
        obtain ⟨ps, read, rest', rfl, hlexemes, hcovers, hends⟩ := ih _ hlt _ tail rfl
        refine ⟨p :: ps, _ ++ (p.text ++ read), rest', ?_, ?_, .piece hblanks ?_ hcovers, ?_⟩
        · rw [List.append_assoc, List.append_assoc, htail]
          exact hsplit
        · rw [hlexemes, List.map_cons]
        · rwa [htail]
        · rw [List.length_append, List.length_append, ← Nat.add_assoc, ← Nat.add_assoc]
          exact hends

end Lexing

/-! ## One item after the other -/

/-- Why a lexer finds no token. -/
inductive LexError where
  | invalidCharacter (c : InvalidCharacter)
  /-- Digits that make no number. -/
  | invalidNumber (text : List Char)
  /-- No character at all. -/
  | empty

/-- What a lexer yields: a token with its characters, or an error. -/
abbrev LexItem := Except LexError Lexeme

/-- The items of a lexing; an error is the last of them. -/
def Lexing.items (l : Lexing) : List LexItem :=
  l.lexemes.map .ok ++ (l.invalid.map fun c => .error (.invalidCharacter c)).toList

/-- Where a lexer is: the characters it has taken in and those to come. -/
structure Cursor where
  read : List Char
  rest : List Char

namespace Cursor

/-- The lexer of a text before its first item. -/
def start (s : String) : Cursor := ⟨[], s.toList⟩

/-- Take in so many characters. -/
def advance (c : Cursor) (n : ℕ) : Cursor := ⟨c.read ++ c.rest.take n, c.rest.drop n⟩

/-- Take in the white space that is next. -/
def skipBlanks (c : Cursor) : Cursor :=
  ⟨c.read ++ c.rest.takeWhile Unicode.isBlank, c.rest.dropWhile Unicode.isBlank⟩

/-- The token that is next: a name, a number if the reader of decimals accepts it, or a single
character. -/
def token (c : Cursor) : LexItem :=
  match c.rest with
  | [] => .error .empty
  | x :: xs =>
    if Unicode.isAlphabetic x then .ok (Lexeme.name x xs)
    else if x.isDigit then
      let literal := (Lexeme.number (x :: xs)).text
      match Decimal.value? literal with
      | some q => .ok ⟨literal, .operand (.constant q)⟩
      | none => .error (.invalidNumber literal)
    else
      match Lexeme.symbol? x with
      | some t => .ok ⟨[x], t⟩
      | none => .error (.invalidCharacter ⟨x, c.read.length⟩)

/-- Take in the item that is next.  Behind an error nothing is left. -/
def takeItem (c : Cursor) : LexItem × Cursor :=
  match c.token with
  | .ok l => (.ok l, c.advance l.text.length)
  | .error e => (.error e, c.advance c.rest.length)

/-- The next item and the lexer behind it, unless only white space is left. -/
def next (c : Cursor) : Option (LexItem × Cursor) :=
  let c := c.skipBlanks
  if c.rest.isEmpty then none else some c.takeItem

/-- The lexer yields these items and then no more. -/
inductive Yields : Cursor → List LexItem → Prop
  | done {c : Cursor} (h : c.next = none) : Yields c []
  | item {c c' : Cursor} {i : LexItem} {is : List LexItem} (h : c.next = some (i, c'))
      (his : Yields c' is) : Yields c (i :: is)

theorem Yields.unique {c : Cursor} {is js : List LexItem} (h : c.Yields is) (hj : c.Yields js) :
    is = js := by
  induction h generalizing js with
  | done h =>
    cases hj with
    | done _ => rfl
    | item h' _ =>
      rw [h] at h'
      cases h'
  | item h _ ih =>
    cases hj with
    | done h' =>
      rw [h] at h'
      cases h'
    | item h' hjs =>
      rw [h] at h'
      cases h'
      rw [ih hjs]

/-- Every literal is a number, so what a lexer reads is what the lexing reads. -/
theorem token_cons (read : List Char) (x : Char) (xs : List Char) :
    (Cursor.mk read (x :: xs)).token =
      match Lexeme.read? x xs with
      | some l => .ok l
      | none => .error (.invalidCharacter ⟨x, read.length⟩) := by
  unfold token Lexeme.read?
  dsimp only
  split
  · rfl
  · split
    · next hdigit =>
      obtain ⟨n, hn, -, -⟩ := Lexeme.exists_numeral hdigit xs
      have htext : n.text = (Piece.operand (.numeral n)).lexeme.text := rfl
      rw [hn, ← htext, n.value?_text]
      rfl
    · cases Lexeme.symbol? x <;> rfl

theorem next_eq_none {c : Cursor} (h : c.rest.dropWhile Unicode.isBlank = []) : c.next = none := by
  rw [next, skipBlanks, h]
  rfl

theorem next_eq_some (read : List Char) {cs : List Char} {x : Char} {xs : List Char}
    (h : cs.dropWhile Unicode.isBlank = x :: xs) : (Cursor.mk read cs).next =
      some (takeItem ⟨read ++ cs.takeWhile Unicode.isBlank, x :: xs⟩) := by
  rw [next, skipBlanks, h]
  rfl

/-- A lexer behind so many characters yields the items of their lexing. -/
theorem yields_ofChars (read cs : List Char) :
    Yields ⟨read, cs⟩ (Lexing.ofChars read.length cs).items := by
  induction hn : cs.length using Nat.strong_induction_on generalizing read cs with
  | _ n ih =>
    subst hn
    unfold Lexing.ofChars
    split
    · next hdrop => exact .done (next_eq_none hdrop)
    · next x xs hdrop =>
      have hsplit := (List.takeWhile_append_dropWhile (p := Unicode.isBlank) (l := cs)).symm
      have hnext := next_eq_some read hdrop
      rw [takeItem, token_cons] at hnext
      dsimp only
      split
      · next hnone =>
        rw [hnone, List.length_append] at hnext
        exact .item hnext (.done (next_eq_none (by rw [advance, List.drop_length]; rfl)))
      · next l hl =>
        obtain ⟨p, rfl, hp⟩ := Lexeme.exists_longest_of_read? hl
        have hle := hp.isPrefix.length_le
        have hpos := p.length_text_pos
        have hlt : ((x :: xs).drop p.text.length).length < cs.length := by
          rw [hsplit, hdrop, List.length_drop, List.length_append]
          omega
        have hlength : (read ++ cs.takeWhile Unicode.isBlank ++ (x :: xs).take p.text.length).length
            = read.length + (cs.takeWhile Unicode.isBlank).length + p.text.length := by
          rw [List.length_append, List.length_append, List.length_take_of_le hle]
        have hrest := ih _ hlt
          (read ++ cs.takeWhile Unicode.isBlank ++ (x :: xs).take p.text.length) _ rfl
        rw [hlength] at hrest
        rw [hl] at hnext
        exact .item hnext hrest

end Cursor

theorem Ends.length_le {position : ℕ} {rest : List Char} {invalid : Option InvalidCharacter}
    (h : Ends position rest invalid) : invalid.toList.length ≤ rest.length := by
  cases h with
  | whole => exact le_rfl
  | invalid => exact Nat.succ_le_succ (Nat.zero_le _)

namespace Lexing

theorem length_items (l : Lexing) :
    l.items.length = l.lexemes.length + l.invalid.toList.length := by
  rw [items, List.length_append, List.length_map]
  cases l.invalid <;> rfl

/-- There are not more items than characters: each piece has a character, and so has what is
left if it is invalid. -/
theorem length_items_le {l : Lexing} {ps : List Piece} {read rest : List Char} {position : ℕ}
    (hlexemes : l.lexemes = ps.map Piece.lexeme) (hcovers : Covers rest ps read)
    (hends : Ends position rest l.invalid) : l.items.length ≤ (read ++ rest).length := by
  rw [length_items, hlexemes, List.length_map, List.length_append]
  exact Nat.add_le_add hcovers.length_le hends.length_le

/-- A lexer loses nothing of a text.  It yields the items of the lexing, not more than there
are characters, and the only error among them is an invalid character, behind which nothing
comes.  The text is made up by the pieces that are read, each the longest one at its place
and read as the variable or the number that it denotes, and by white space around them; what
is left is nothing, or it begins with the invalid character, which is no white space and
starts no piece, and whose position is the number of characters before it. -/
theorem ofString_lossless (s : String) :
    (∀ items, (Cursor.start s).Yields items ↔ items = (ofString s).items) ∧
    (ofString s).items.length ≤ s.length ∧
    (∃ ps read rest, s.toList = read ++ rest ∧ (ofString s).lexemes = ps.map Piece.lexeme ∧
      Covers rest ps read ∧ Ends read.length rest (ofString s).invalid) ∧
    ∀ n : Numeral, Decimal.value? n.text = some n.value ∧
      n.value = Decimal.ofDigits (n.whole ++ n.fractionDigits) / 10 ^ n.fractionDigits.length := by
  obtain ⟨ps, read, rest, hs, hlexemes, hcovers, hends⟩ := covers_ofChars 0 s.toList
  rw [Nat.zero_add] at hends
  refine ⟨fun items => ⟨fun h => h.unique (Cursor.yields_ofChars [] s.toList), ?_⟩, ?_,
    ⟨ps, read, rest, hs, hlexemes, hcovers, hends⟩, fun n => ⟨n.value?_text, n.value_eq_div⟩⟩
  · rintro rfl
    exact Cursor.yields_ofChars [] s.toList
  · rw [← String.length_toList, hs]
    exact length_items_le hlexemes hcovers hends

end Lexing
end Meadow
