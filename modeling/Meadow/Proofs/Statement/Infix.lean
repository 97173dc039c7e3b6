import Mathlib
import Meadow.Proofs.Steps
import Meadow.Statement.Parser

set_option autoImplicit false

/-!
# Which token sequences are read

Infix expressions are described by a grammar of their own.  The stacks only count
operands, so they also take in operators that stand behind their operands, as in `x y +`.
What is read is an infix expression exactly when nowhere one operand directly follows
another (`Statement.infix_iff_of_parse`): an operator or a parenthesis out of its place
leaves one operand too few, and only such a neighbourhood makes up for it.
-/

namespace Meadow

/-! ## The grammar -/

/-- The token sequences of infix expressions. -/
inductive Infix : List Token → Prop
  | operand (p : Poly) : Infix [.operand p]
  | parens {ts : List Token} (h : Infix ts) : Infix (.leftParen :: (ts ++ [.rightParen]))
  | binary {ts us : List Token} (op : Operator) (ht : Infix ts) (hu : Infix us) :
      Infix (ts ++ .operator op :: us)

namespace Token

/-- Does a part of an expression start with this token? -/
def isStart : Token → Bool
  | operand _ | leftParen => true
  | operator _ | rightParen => false

/-- Does a part of an expression end with this token? -/
def isEnd : Token → Bool
  | operand _ | rightParen => true
  | operator _ | leftParen => false

/-- One part of an expression ends and another starts with nothing to join them. -/
def Abuts (t u : Token) : Prop := t.isEnd = true ∧ u.isStart = true

end Token

namespace Infix

/-- In an infix expression no operand directly follows another one. -/
theorem isChain {ts : List Token} (h : Infix ts) : ts.IsChain fun t u => ¬ t.Abuts u := by
  induction h with
  | operand p => exact List.isChain_singleton _
  | @parens ts h ih =>
    refine List.isChain_cons.2 ⟨?_, List.isChain_append.2 ⟨ih, List.isChain_singleton _, ?_⟩⟩
    · intro t _ habuts
      cases habuts.1
    · intro t _ u hu habuts
      cases hu
      cases habuts.2
  | @binary ts us op ht hu iht ihu =>
    refine List.isChain_append.2 ⟨iht, List.isChain_cons.2 ⟨?_, ihu⟩, ?_⟩
    · intro u _ habuts
      cases habuts.1
    · intro t _ u hu habuts
      cases hu
      cases habuts.2

end Infix

/-! ## What the stacks count -/

namespace Token

/-- What a token adds to the operands that no operator joins. -/
def surplus : Token → ℤ
  | operand _ => 1
  | operator _ => -1
  | leftParen | rightParen => 0

/-- What a token adds to the open parentheses. -/
def depth : Token → ℤ
  | leftParen => 1
  | rightParen => -1
  | operand _ | operator _ => 0

end Token

/-- Is an operator pending here? -/
def Pending.isOperator : Pending → Bool
  | operator _ => true
  | paren => false

namespace Stacks

/-- The operands that would be left if all pending operators were applied. -/
def surplus (s : Stacks) : ℤ := s.operands.length - s.pending.countP Pending.isOperator

/-- The parentheses that are open. -/
def depth (s : Stacks) : ℕ := s.pending.count .paren

theorem surplus_operator (operands : List Statement) (op : Operator) (pending : List Pending) :
    surplus ⟨operands, .operator op :: pending⟩ = surplus ⟨operands, pending⟩ - 1 := by
  rw [surplus, List.countP_cons_of_pos rfl, surplus]
  push_cast
  ring

theorem depth_operator (operands : List Statement) (op : Operator) (pending : List Pending) :
    depth ⟨operands, .operator op :: pending⟩ = depth ⟨operands, pending⟩ := by
  apply List.count_cons_of_ne
  intro h
  cases h

theorem surplus_paren (operands : List Statement) (pending : List Pending) :
    surplus ⟨operands, .paren :: pending⟩ = surplus ⟨operands, pending⟩ := rfl

theorem depth_paren (operands : List Statement) (pending : List Pending) :
    depth ⟨operands, .paren :: pending⟩ = depth ⟨operands, pending⟩ + 1 :=
  List.count_cons_self

/-- An operator that is applied changes no count. -/
theorem counts_applyTop {op : Operator} {operands rest : List Statement}
    (h : applyTop op operands = .ok rest) (pending : List Pending) :
    surplus ⟨rest, pending⟩ = surplus ⟨operands, .operator op :: pending⟩ ∧
      depth ⟨rest, pending⟩ = depth ⟨operands, .operator op :: pending⟩ := by
  have hlength : operands.length = rest.length + 1 := by
    unfold applyTop at h
    split at h
    · cases h
      rfl
    · cases h
    · cases h
  refine ⟨?_, (depth_operator operands op pending).symm⟩
  rw [surplus_operator, surplus, surplus, hlength]
  push_cast
  ring

theorem counts_applyBinding {incoming : Operator} {pending : List Pending}
    {operands : List Statement} {s : Stacks} (h : applyBinding incoming pending operands = .ok s) :
    s.surplus = surplus ⟨operands, pending⟩ ∧ s.depth = depth ⟨operands, pending⟩ := by
  induction pending generalizing operands with
  | nil =>
    cases h
    exact ⟨rfl, rfl⟩
  | cons p pending ih =>
    cases p with
    | paren =>
      cases h
      exact ⟨rfl, rfl⟩
    | operator op =>
      unfold applyBinding at h
      split at h
      · cases h
        exact ⟨rfl, rfl⟩
      · obtain ⟨rest, htop, hrest⟩ := exists_of_bind_eq_ok h
        obtain ⟨hsurplus, hdepth⟩ := counts_applyTop htop pending
        exact ⟨(ih hrest).1.trans hsurplus, (ih hrest).2.trans hdepth⟩

theorem counts_closeParen {pending : List Pending} {operands : List Statement} {s : Stacks}
    (h : closeParen pending operands = .ok s) :
    s.surplus = surplus ⟨operands, pending⟩ ∧ s.depth + 1 = depth ⟨operands, pending⟩ := by
  induction pending generalizing operands with
  | nil => cases h
  | cons p pending ih =>
    cases p with
    | paren =>
      cases h
      exact ⟨(surplus_paren _ _).symm, (depth_paren _ _).symm⟩
    | operator op =>
      obtain ⟨rest, htop, hrest⟩ := exists_of_bind_eq_ok h
      obtain ⟨hsurplus, hdepth⟩ := counts_applyTop htop pending
      exact ⟨(ih hrest).1.trans hsurplus, (ih hrest).2.trans hdepth⟩

theorem counts_applyAll {pending : List Pending} {operands rest : List Statement}
    (h : applyAll pending operands = .ok rest) :
    (rest.length : ℤ) = surplus ⟨operands, pending⟩ ∧ depth ⟨operands, pending⟩ = 0 := by
  induction pending generalizing operands with
  | nil =>
    cases h
    exact ⟨(sub_zero _).symm, rfl⟩
  | cons p pending ih =>
    cases p with
    | paren => cases h
    | operator op =>
      obtain ⟨rest', htop, hrest⟩ := exists_of_bind_eq_ok h
      obtain ⟨hsurplus, hdepth⟩ := counts_applyTop htop pending
      exact ⟨(ih hrest).1.trans hsurplus, hdepth.symm.trans (ih hrest).2⟩

/-- A token that is taken in adds its own counts. -/
theorem counts_step {s s' : Stacks} {t : Token} (h : s.step t = .ok s') :
    s'.surplus = s.surplus + t.surplus ∧ (s'.depth : ℤ) = s.depth + t.depth := by
  cases t with
  | operand p =>
    cases h
    refine ⟨?_, (add_zero _).symm⟩
    rw [surplus, surplus, List.length_cons, Token.surplus]
    push_cast
    ring
  | operator op =>
    obtain ⟨s₁, hbinding, hs₁⟩ := exists_of_bind_eq_ok h
    cases hs₁
    obtain ⟨hsurplus, hdepth⟩ := counts_applyBinding hbinding
    rw [surplus_operator, depth_operator, hsurplus, hdepth]
    exact ⟨rfl, (add_zero _).symm⟩
  | leftParen =>
    cases h
    rw [surplus_paren, depth_paren]
    exact ⟨(add_zero _).symm, Nat.cast_succ _⟩
  | rightParen =>
    obtain ⟨hsurplus, hdepth⟩ := counts_closeParen h
    refine ⟨hsurplus.trans (add_zero _).symm, ?_⟩
    have hdepth' : s'.depth + 1 = s.depth := hdepth
    rw [← hdepth', Token.depth]
    push_cast
    ring

/-- What is finished had one operand too many for its operators and no parenthesis open. -/
theorem counts_finish {s : Stacks} {statement : Statement} (h : s.finish = .ok statement) :
    s.surplus = 1 ∧ s.depth = 0 := by
  obtain ⟨operands, happly, hfinish⟩ := exists_of_bind_eq_ok h
  obtain ⟨hsurplus, hdepth⟩ := counts_applyAll happly
  split at hfinish
  · cases hfinish
  · exact ⟨hsurplus.symm, hdepth⟩
  · cases hfinish

end Stacks

/-! ## Parts of infix expressions -/

/-- What stands in a pair of parentheses where an operand has to follow. -/
inductive Lead : List Token → Prop
  | empty : Lead []
  | operator {ts : List Token} (h : Infix ts) (op : Operator) : Lead (ts ++ [.operator op])

/-- What stands up to the innermost of some open parentheses. -/
inductive Nest : ℕ → List Token → Prop
  | outermost : Nest 0 []
  | paren {depth : ℕ} {ts us : List Token} (hts : Nest depth ts) (hus : Lead us) :
      Nest (depth + 1) (ts ++ us ++ [.leftParen])

/-- The beginning of an infix expression, up to where an operand has to follow. -/
def AwaitsOperand (depth : ℕ) (ts : List Token) : Prop :=
  ∃ us vs, ts = us ++ vs ∧ Nest depth us ∧ Lead vs

/-- The beginning of an infix expression, up to the end of an operand. -/
def AwaitsOperator (depth : ℕ) (ts : List Token) : Prop :=
  ∃ us vs, ts = us ++ vs ∧ Nest depth us ∧ Infix vs

theorem Lead.append {ts us : List Token} (h : Lead ts) (hus : Infix us) : Infix (ts ++ us) := by
  cases h with
  | empty => exact hus
  | operator h op =>
    rw [List.append_assoc]
    exact .binary op h hus

namespace AwaitsOperand

variable {depth : ℕ} {ts : List Token}

theorem start : AwaitsOperand 0 [] := ⟨[], [], rfl, .outermost, .empty⟩

theorem operand (h : AwaitsOperand depth ts) (p : Poly) :
    AwaitsOperator depth (ts ++ [.operand p]) := by
  obtain ⟨us, vs, rfl, hus, hvs⟩ := h
  exact ⟨us, vs ++ [.operand p], List.append_assoc _ _ _, hus, hvs.append (.operand p)⟩

theorem leftParen (h : AwaitsOperand depth ts) :
    AwaitsOperand (depth + 1) (ts ++ [.leftParen]) := by
  obtain ⟨us, vs, rfl, hus, hvs⟩ := h
  exact ⟨us ++ vs ++ [.leftParen], [], (List.append_nil _).symm, .paren hus hvs, .empty⟩

end AwaitsOperand

namespace AwaitsOperator

variable {depth : ℕ} {ts : List Token}

theorem operator (h : AwaitsOperator depth ts) (op : Operator) :
    AwaitsOperand depth (ts ++ [.operator op]) := by
  obtain ⟨us, vs, rfl, hus, hvs⟩ := h
  exact ⟨us, vs ++ [.operator op], List.append_assoc _ _ _, hus, .operator hvs op⟩

theorem rightParen (h : AwaitsOperator (depth + 1) ts) :
    AwaitsOperator depth (ts ++ [.rightParen]) := by
  obtain ⟨us, vs, rfl, hus, hvs⟩ := h
  cases hus with
  | @paren _ us ws hus hws =>
    exact ⟨us, ws ++ .leftParen :: (vs ++ [.rightParen]), by simp, hus, hws.append (.parens hvs)⟩

theorem infix_of_outermost (h : AwaitsOperator 0 ts) : Infix ts := by
  obtain ⟨us, vs, rfl, hus, hvs⟩ := h
  cases hus
  exact hvs

end AwaitsOperator

/-! ## What is read -/

namespace Stacks

/-- Does the part read so far end with an operand? -/
def EndsOperand (ts : List Token) : Prop := ∃ t ∈ ts.getLast?, t.isEnd = true

/-- What is true of the stacks as long as no operand directly follows another one: after
the beginning of an infix expression they hold what they should, and an operator or a
parenthesis out of its place leaves them short of an operand for good. -/
def Reading (ts : List Token) (s : Stacks) : Prop :=
  EndsOperand ts ∧ (s.surplus ≤ 0 ∨ s.surplus = 1 ∧ AwaitsOperator s.depth ts) ∨
    ¬ EndsOperand ts ∧ (s.surplus < 0 ∨ s.surplus = 0 ∧ AwaitsOperand s.depth ts)

theorem reading_step {ts : List Token} {s s' : Stacks} {t : Token} (h : Reading ts s)
    (hstep : s.step t = .ok s') (habuts : ∀ u ∈ ts.getLast?, ¬ u.Abuts t) :
    Reading (ts ++ [t]) s' := by
  obtain ⟨hsurplus, hdepth⟩ := counts_step hstep
  have hends : EndsOperand (ts ++ [t]) ↔ t.isEnd = true := by
    rw [EndsOperand, List.getLast?_concat]
    simp
  have hstart (h : EndsOperand ts) : t.isStart = false := by
    obtain ⟨u, hu, hend⟩ := h
    have hnot := habuts u hu
    rw [Token.Abuts, hend] at hnot
    simpa using hnot
  rw [Reading, hends]
  cases t with
  | operand p =>
    simp only [Token.surplus, Token.depth] at hsurplus hdepth
    have hdepth' : s'.depth = s.depth := by omega
    rcases h with ⟨h, -⟩ | ⟨-, h | ⟨h, hawaits⟩⟩
    · cases hstart h
    · exact Or.inl ⟨rfl, Or.inl (by omega)⟩
    · exact Or.inl ⟨rfl, Or.inr ⟨by omega, hdepth' ▸ hawaits.operand p⟩⟩
  | operator op =>
    simp only [Token.surplus, Token.depth] at hsurplus hdepth
    have hdepth' : s'.depth = s.depth := by omega
    rcases h with ⟨-, h | ⟨h, hawaits⟩⟩ | ⟨-, h | ⟨h, -⟩⟩
    · exact Or.inr ⟨Bool.false_ne_true, Or.inl (by omega)⟩
    · exact Or.inr ⟨Bool.false_ne_true, Or.inr ⟨by omega, hdepth' ▸ hawaits.operator op⟩⟩
    · exact Or.inr ⟨Bool.false_ne_true, Or.inl (by omega)⟩
    · exact Or.inr ⟨Bool.false_ne_true, Or.inl (by omega)⟩
  | leftParen =>
    simp only [Token.surplus, Token.depth] at hsurplus hdepth
    have hdepth' : s'.depth = s.depth + 1 := by omega
    rcases h with ⟨h, -⟩ | ⟨-, h | ⟨h, hawaits⟩⟩
    · cases hstart h
    · exact Or.inr ⟨Bool.false_ne_true, Or.inl (by omega)⟩
    · exact Or.inr ⟨Bool.false_ne_true, Or.inr ⟨by omega, hdepth' ▸ hawaits.leftParen⟩⟩
  | rightParen =>
    simp only [Token.surplus, Token.depth] at hsurplus hdepth
    have hdepth' : s.depth = s'.depth + 1 := by omega
    rcases h with ⟨-, h | ⟨h, hawaits⟩⟩ | ⟨-, h | ⟨h, -⟩⟩
    · exact Or.inl ⟨rfl, Or.inl (by omega)⟩
    · rw [hdepth'] at hawaits
      exact Or.inl ⟨rfl, Or.inr ⟨by omega, hawaits.rightParen⟩⟩
    · exact Or.inl ⟨rfl, Or.inl (by omega)⟩
    · exact Or.inl ⟨rfl, Or.inl (by omega)⟩

theorem reading_of_foldlM {ts : List Token} {s : Stacks} (h : ts.foldlM step start = .ok s)
    (hchain : ts.IsChain fun t u => ¬ t.Abuts u) : Reading ts s := by
  induction ts using List.reverseRecOn generalizing s with
  | nil =>
    cases h
    exact Or.inr ⟨fun ⟨t, ht, _⟩ => (nomatch ht), Or.inr ⟨rfl, .start⟩⟩
  | append_singleton ts t ih =>
    obtain ⟨hts, -, habuts⟩ := List.isChain_append.1 hchain
    rw [List.foldlM_append] at h
    obtain ⟨s₁, hs₁, h⟩ := exists_of_bind_eq_ok h
    obtain ⟨s₂, hstep, hs₂⟩ := exists_of_bind_eq_ok h
    cases hs₂
    exact reading_step (ih hs₁ hts) hstep fun u hu => habuts u hu t rfl

end Stacks

namespace Statement

/-- What is read is an infix expression exactly when nowhere one operand directly follows
another. -/
theorem infix_iff_of_parse {text : String} {statement : Statement}
    (h : parse text = .ok statement) :
    Infix (Lexing.ofString text).tokens ↔
      (Lexing.ofString text).tokens.IsChain fun t u => ¬ t.Abuts u := by
  refine ⟨Infix.isChain, ?_⟩
  intro hchain
  obtain ⟨s, hs, hfinish⟩ := exists_of_bind_eq_ok h
  split at hfinish
  · cases hfinish
  · obtain ⟨hsurplus, hdepth⟩ := Stacks.counts_finish hfinish
    have hreading := Stacks.reading_of_foldlM hs hchain
    rw [Stacks.Reading, hsurplus, hdepth] at hreading
    rcases hreading with ⟨-, h | ⟨-, hawaits⟩⟩ | ⟨-, h | ⟨h, -⟩⟩
    · omega
    · exact hawaits.infix_of_outermost
    · omega
    · omega

/-- Parentheses around a sum that is multiplied. -/
theorem infix_iff_of_parse_parens :
    parse "(x + 1) * y" = .ok (.value (.poly (((Poly.var "x").add .one).mul (.var "y")))) ∧
      Infix (Lexing.ofString "(x + 1) * y").tokens := by
  have h : parse "(x + 1) * y"
      = .ok (.value (.poly (((Poly.var "x").add .one).mul (.var "y")))) := by
    decide +kernel
  have htokens : (Lexing.ofString "(x + 1) * y").tokens
      = [.leftParen, .operand (.var "x"), .operator .plus, .operand .one, .rightParen,
        .operator .times, .operand (.var "y")] := by decide +kernel
  refine ⟨h, (infix_iff_of_parse h).2 ?_⟩
  rw [htokens]
  simp [Token.Abuts, Token.isStart, Token.isEnd]

/-- An operator behind its operands is read, though it joins nothing at its place. -/
theorem parse_postfix :
    parse "x y +" = .ok (.value (.poly ((Poly.var "x").add (.var "y")))) ∧
      ¬ Infix (Lexing.ofString "x y +").tokens := by
  have h : parse "x y +" = .ok (.value (.poly ((Poly.var "x").add (.var "y")))) := by
    decide +kernel
  have htokens : (Lexing.ofString "x y +").tokens
      = [.operand (.var "x"), .operand (.var "y"), .operator .plus] := by decide +kernel
  refine ⟨h, fun hinfix => ?_⟩
  rw [htokens] at hinfix
  exact (List.isChain_cons_cons.1 hinfix.isChain).1 ⟨rfl, rfl⟩

end Statement
end Meadow
