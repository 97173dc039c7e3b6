import Mathlib
import Meadow.Poly.Text
import Meadow.Proofs.Text.Evaluation

set_option autoImplicit false

/-!
# Texts that are put together

A text shows a value at a level of precedence if it spells out tokens that have it there.
Texts are put together as the grammar says, and beyond it where a field allows it: a sign in
front of a product is one of the product, and a product may be a factor on the right.
-/

namespace Meadow

/-! ## Adjacent tokens -/

theorem Piece.isOperand_token (p : Piece) : p.token.isOperand = p.isOperand := by
  cases p <;> rfl

/-- No two operands stand side by side. -/
def Token.Apart (ts : List Token) : Prop :=
  ts.IsChain fun t u => t.isOperand = false ∨ u.isOperand = false

theorem Token.Apart.cons {us : List Token} {t : Token} (ht : t.isOperand = false)
    (hus : Apart us) : Apart (t :: us) :=
  List.isChain_cons.2 ⟨fun _ _ => Or.inl ht, hus⟩

theorem Token.Apart.append {ts us : List Token} {t : Token} (hts : Apart ts)
    (ht : t.isOperand = false) (hus : Apart us) : Apart (ts ++ t :: us) := by
  refine List.isChain_append.2 ⟨hts, hus.cons ht, ?_⟩
  rintro _ _ _ ⟨⟩
  exact Or.inr ht

theorem separated_iff {ps : List Piece} : Separated ps ↔ Token.Apart (ps.map Piece.token) := by
  rw [Separated, Token.Apart, List.isChain_map]
  simp only [Piece.isOperand_token]

variable {K : Type*} [Field K] {v : String → K}

namespace Evaluates

theorem apart {k : ℕ} {ts : List Token} {x : K} (h : Evaluates v k ts x) : Token.Apart ts := by
  induction h with
  | operand p => exact List.isChain_singleton _
  | parens _ ih => exact (ih.append rfl List.isChain_nil).cons rfl
  | power _ n ih => exact ih.append rfl (.cons rfl (List.isChain_singleton _))
  | neg _ ih => exact ih.cons rfl
  | mul _ _ ihx ihy => exact ihx.append rfl ihy
  | div _ _ ihx ihy => exact ihx.append rfl ihy
  | add _ _ ihx ihy => exact ihx.append rfl ihy
  | sub _ _ ihx ihy => exact ihx.append rfl ihy
  | lift _ ih => exact ih

/-- A sign in front of a product is one of its first factor. -/
theorem neg_product {ts : List Token} {x : K} (h : Evaluates v 1 ts x) :
    Evaluates v 1 (.operator .minus :: ts) (-x) := by
  generalize hk : 1 = k at h
  induction h with
  | mul _ hy ih _ =>
    rw [← neg_mul]
    exact .mul (ih rfl) hy
  | div _ hy ih _ =>
    rw [← neg_div]
    exact .div (ih rfl) hy
  | lift h =>
    subst hk
    exact .lift (.neg h)
  | _ => cases hk

/-- A product on the right is multiplied factor by factor. -/
theorem mul_product {ts us : List Token} {x y : K} (hx : Evaluates v 1 ts x)
    (hy : Evaluates v 1 us y) : Evaluates v 1 (ts ++ .operator .times :: us) (x * y) := by
  generalize hk : 1 = k at hy
  induction hy with
  | mul _ hz ih _ =>
    rw [← mul_assoc, ← List.cons_append, ← List.append_assoc]
    exact .mul (ih rfl) hz
  | div _ hz ih _ =>
    rw [← mul_div_assoc, ← List.cons_append, ← List.append_assoc]
    exact .div (ih rfl) hz
  | lift h =>
    subst hk
    exact .mul hx h
  | _ => cases hk

end Evaluates

/-! ## Spelled out -/

namespace Spells

theorem prepend_blank {ps : List Piece} {bs cs : List Char}
    (hbs : ∀ c ∈ bs, Unicode.isBlank c = true) (h : Spells ps cs) : Spells ps (bs ++ cs) := by
  cases h with
  | blank hcs => exact .blank (List.forall_mem_append.2 ⟨hbs, hcs⟩)
  | piece hcs h =>
    rw [← List.append_assoc]
    exact .piece (List.forall_mem_append.2 ⟨hbs, hcs⟩) h

theorem append {ps qs : List Piece} {cs ds : List Char} (h : Spells ps cs)
    (hqs : Spells qs ds) : Spells (ps ++ qs) (cs ++ ds) := by
  induction h with
  | blank hbs => exact hqs.prepend_blank hbs
  | piece hbs _ ih =>
    rw [List.append_assoc, List.append_assoc]
    exact .piece hbs ih

theorem single (p : Piece) : Spells [p] p.text := by
  have h := spells_flatMap [p]
  rwa [List.flatMap_singleton] at h

/-- An operator with a space on either side. -/
theorem spaced_operator (op : Operator) : Spells [.operator op] [' ', op.symbol, ' '] :=
  (Spells.blank isBlank_space).spaced

end Spells

/-- A text spells out tokens that have a value at a level of precedence. -/
def Shows (v : String → K) (k : ℕ) (text : String) (x : K) : Prop :=
  ∃ ps, Spells ps text.toList ∧ Evaluates v k (ps.map Piece.token) x

/-- A text has the value that it shows. -/
theorem Shows.textEvaluates {text : String} {x : K} (h : Shows v 0 text x) :
    TextEvaluates v text x := by
  obtain ⟨ps, hps, hx⟩ := h
  obtain ⟨htokens, hinvalid⟩ := hps.tokens_ofChars (separated_iff.2 hx.apart) 0
  refine ⟨hinvalid, ?_⟩
  rwa [Lexing.ofString, htokens]

namespace Shows

variable {s t : String} {x y : K}

theorem of_le {k l : ℕ} (h : Shows v k s x) (hkl : l ≤ k := by decide) : Shows v l s x := by
  obtain ⟨ps, hps, hx⟩ := h
  exact ⟨ps, hps, hx.of_le hkl⟩

theorem parens (h : Shows v 0 s x) : Shows v 4 ("(" ++ s ++ ")") x := by
  obtain ⟨ps, hps, hx⟩ := h
  refine ⟨.leftParen :: (ps ++ [.rightParen]), ?_, ?_⟩
  · rw [String.toList_append, String.toList_append]
    exact ((Spells.single .leftParen).append hps).append (.single .rightParen)
  · rw [List.map_cons, List.map_append]
    exact .parens hx

theorem neg (h : Shows v 1 s x) : Shows v 1 ("-" ++ s) (-x) := by
  obtain ⟨ps, hps, hx⟩ := h
  refine ⟨.operator .minus :: ps, ?_, hx.neg_product⟩
  rw [String.toList_append]
  exact (Spells.single (.operator .minus)).append hps

/-- Two texts with an operator between them. -/
theorem binary {op : Operator} {o : String} (ho : Spells [.operator op] o.toList) {k l m : ℕ}
    {z : K} (hx : Shows v k s x) (hy : Shows v l t y)
    (hz : ∀ {ts us : List Token}, Evaluates v k ts x → Evaluates v l us y →
      Evaluates v m (ts ++ .operator op :: us) z) :
    Shows v m (s ++ o ++ t) z := by
  obtain ⟨ps, hps, hx⟩ := hx
  obtain ⟨qs, hqs, hy⟩ := hy
  refine ⟨ps ++ [.operator op] ++ qs, ?_, ?_⟩
  · rw [String.toList_append, String.toList_append]
    exact (hps.append ho).append hqs
  · rw [List.map_append, List.map_append, List.append_assoc]
    exact hz hx hy

theorem mul {o : String} (ho : Spells [.operator .times] o.toList) (hx : Shows v 1 s x)
    (hy : Shows v 1 t y) : Shows v 1 (s ++ o ++ t) (x * y) :=
  binary ho hx hy .mul_product

theorem div {o : String} (ho : Spells [.operator .divide] o.toList) (hx : Shows v 1 s x)
    (hy : Shows v 2 t y) : Shows v 1 (s ++ o ++ t) (x / y) :=
  binary ho hx hy .div

theorem add {o : String} (ho : Spells [.operator .plus] o.toList) (hx : Shows v 0 s x)
    (hy : Shows v 1 t y) : Shows v 0 (s ++ o ++ t) (x + y) :=
  binary ho hx hy .add

theorem sub {o : String} (ho : Spells [.operator .minus] o.toList) (hx : Shows v 0 s x)
    (hy : Shows v 1 t y) : Shows v 0 (s ++ o ++ t) (x - y) :=
  binary ho hx hy .sub

/-- Factors joined by stars. -/
theorem intercalate {α : Type*} {f : α → String} {g : α → K} (hx : Shows v 1 s x) {as : List α}
    (has : ∀ a ∈ as, Shows v 1 (f a) (g a)) :
    Shows v 1 ("*".intercalate (s :: as.map f)) (x * (as.map g).prod) := by
  induction as generalizing s x with
  | nil =>
    rw [List.map_nil, List.map_nil, String.intercalate_singleton, List.prod_nil, mul_one]
    exact hx
  | cons a as ih =>
    have hfirst := hx.mul (o := "*") (Spells.single (.operator .times))
      (has a List.mem_cons_self)
    have hrest := ih hfirst fun b hb => has b (List.mem_cons_of_mem a hb)
    rw [String.intercalate_cons_append] at hrest
    rw [List.map_cons, List.map_cons, String.intercalate_cons_cons, List.prod_cons, ← mul_assoc]
    exact hrest

end Shows

/-! ## Numbers and names -/

/-- A natural number is written as its literal. -/
theorem spells_nat (n : ℕ) : Spells [.operand (.numeral (.ofNat n))] (toString n).toList := by
  have htext : (toString n).toList = (Numeral.ofNat n).text := Nat.toList_repr
  rw [htext]
  exact .single _

theorem token_nat (n : ℕ) :
    (Piece.operand (.numeral (.ofNat n))).token = .operand (.constant n) :=
  congrArg (fun c : ℚ => Token.operand (.constant c)) (Numeral.value_ofNat n)

theorem Shows.power {s : String} {x : K} (h : Shows v 4 s x) (n : ℕ) :
    Shows v 3 (s ++ "**" ++ toString n) (x ^ n) := by
  obtain ⟨ps, hps, hx⟩ := h
  refine ⟨ps ++ [.operator .times, .operator .times] ++ [.operand (.numeral (.ofNat n))],
    ?_, ?_⟩
  · rw [String.toList_append, String.toList_append]
    exact (hps.append (spells_flatMap [.operator .times, .operator .times])).append (spells_nat n)
  · rw [List.map_append, List.map_append, List.append_assoc, List.map_singleton, token_nat]
    exact .power hx n

theorem shows_name (n : Name) [CharZero K] : Shows v 4 n.var (v n.var) := by
  refine ⟨[.operand (.name n)], ?_, ?_⟩
  · have htext : n.var.toList = n.text := String.toList_ofList
    rw [htext]
    exact .single _
  · have hvar := Evaluates.operand (v := v) (.var n.var)
    rwa [Poly.value_var] at hvar

variable [CharZero K]

theorem shows_nat (n : ℕ) : Shows v 4 (toString n) (n : K) := by
  refine ⟨_, spells_nat n, ?_⟩
  have hconstant := Evaluates.operand (v := v) (.constant n)
  rw [Poly.value_constant, Rat.cast_natCast] at hconstant
  rwa [List.map_singleton, token_nat]

theorem shows_int (n : ℤ) : Shows v 1 (toString n) (n : K) := by
  rw [Int.toString_eq_repr, Int.repr_eq_if]
  split
  · next h =>
    obtain ⟨m, rfl⟩ := Int.eq_ofNat_of_zero_le h
    rw [Int.toNat_natCast, Int.cast_natCast]
    exact (shows_nat m).of_le
  · next h =>
    obtain ⟨m, hm⟩ := Int.eq_ofNat_of_zero_le (a := -n) (by omega)
    have hcast : (n : K) = -(m : K) := by
      rw [← Int.cast_natCast, ← hm, Int.cast_neg, neg_neg]
    rw [hm, Int.toNat_natCast, hcast]
    exact (shows_nat m).of_le.neg

theorem shows_rat (c : ℚ) : Shows v 1 (renderRat c) (c : K) := by
  unfold renderRat
  rw [Rat.cast_def]
  split
  · next h =>
    rw [h, Nat.cast_one, div_one]
    exact shows_int c.num
  · exact (shows_int c.num).div (Spells.single (.operator .divide))
      (shows_nat c.den).of_le

end Meadow
