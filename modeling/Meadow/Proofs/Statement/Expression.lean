import Mathlib
import Meadow.Proofs.Form.Arithmetic
import Meadow.Proofs.Token.Lexeme
import Meadow.Statement.Parser

set_option autoImplicit false

/-!
# Expressions and their texts

The stacks of the parser evaluate the expression that a text renders, operators before
those around them and from left to right (`Expression.parse_of_renders`).  The
invariant is about any part of an expression: after its pieces, with the operators applied
that the next piece would apply, the part has left its value on the operands and nothing
on the operators.
-/

namespace Meadow

/-- An expression with binary operators of some kind. -/
inductive Expression (α : Type) where
  | operand (o : Operand)
  | binary (op : α) (left right : Expression α)

namespace Expression

/-- The expression that is a single letter. -/
def letter {α : Type} (c : Char) (h : Unicode.isAlphabetic c = true := by decide) :
    Expression α := .operand (.name (.letter c h))

/-- The expression that is a single digit. -/
def digit {α : Type} (c : Char) (h : c.isDigit = true := by decide) : Expression α :=
  .operand (.numeral (.digit c h))

/-! ## Rendering -/

/-- The pieces render the expression where operators of at least the given precedence
may stand without parentheses.  An operand on the right of an operator needs them
already if its own operator binds no more tightly. -/
inductive Pieces : ℕ → Expression Operator → List Piece → Prop
  | operand {level : ℕ} (o : Operand) : Pieces level (.operand o) [.operand o]
  | binary {level : ℕ} {op : Operator} {left right : Expression Operator} {ps qs : List Piece}
      (hlevel : level ≤ op.precedence) (hleft : Pieces op.precedence left ps)
      (hright : Pieces (op.precedence + 1) right qs) :
      Pieces level (.binary op left right) (ps ++ .operator op :: qs)
  | parens {level : ℕ} {e : Expression Operator} {ps : List Piece} (he : Pieces 0 e ps) :
      Pieces level e (.leftParen :: (ps ++ [.rightParen]))

/-- The text renders the expression, with any parentheses that leave it the same and any
white space. -/
def Renders (e : Expression Operator) (text : String) : Prop :=
  ∃ ps, Pieces 0 e ps ∧ Spells ps text.toList

theorem Pieces.separated {level : ℕ} {e : Expression Operator} {ps : List Piece}
    (h : Pieces level e ps) : Separated ps := by
  induction h with
  | operand o => exact List.isChain_singleton _
  | @binary level op left right ps qs hlevel hleft hright ihleft ihright =>
    refine List.isChain_append.2 ⟨ihleft, ?_, ?_⟩
    · exact List.isChain_cons.2 ⟨fun _ _ => Or.inl rfl, ihright⟩
    · intro p _ q hq
      cases hq
      exact Or.inr rfl
  | @parens level e ps he ih =>
    refine List.isChain_cons.2 ⟨fun _ _ => Or.inl rfl, ?_⟩
    refine List.isChain_append.2 ⟨ih, List.isChain_singleton _, ?_⟩
    intro p _ q hq
    cases hq
    exact Or.inr rfl

/-- The pieces of an expression with parentheses around every operation. -/
def fullPieces : Expression Operator → List Piece
  | operand o => [.operand o]
  | binary op left right =>
    .leftParen :: (left.fullPieces ++ .operator op :: right.fullPieces ++ [.rightParen])

/-- The text of an expression with parentheses around every operation. -/
def write (e : Expression Operator) : String := String.ofList (e.fullPieces.flatMap Piece.text)

theorem pieces_fullPieces (e : Expression Operator) (level : ℕ) :
    Pieces level e e.fullPieces := by
  induction e generalizing level with
  | operand o => exact .operand o
  | binary op left right ihleft ihright =>
    exact .parens (.binary (Nat.zero_le _) (ihleft _) (ihright _))

theorem renders_write (e : Expression Operator) : e.Renders e.write :=
  ⟨e.fullPieces, e.pieces_fullPieces 0, by
    rw [write, String.toList_ofList]
    exact spells_flatMap _⟩

/-! ## Evaluation from the bottom up -/

/-- The statement that an operator makes of two statements; an equation cannot be an
operand. -/
def combine (op : Operator) : Statement → Statement → Except ParseError Statement
  | .value a, .value b => .ok (op.apply a b)
  | _, _ => .error (.equationOperand op)

/-- The statement that an expression makes, operands before operators and from left to
right. -/
def evaluate : Expression Operator → Except ParseError Statement
  | operand o => .ok (.value (.poly o.poly))
  | binary op left right => do
    let a ← left.evaluate
    let b ← right.evaluate
    combine op a b

/-! ## The stacks -/

open Stacks

/-- Apply the pending operators of at least a precedence, down to a parenthesis. -/
def settle (level : ℕ) : List Pending → List Statement → Except ParseError Stacks
  | .operator op :: pending, operands =>
    if op.precedence < level then .ok ⟨operands, .operator op :: pending⟩
    else do settle level pending (← applyTop op operands)
  | pending, operands => .ok ⟨operands, pending⟩

theorem applyBinding_eq_settle (incoming : Operator) (pending : List Pending)
    (operands : List Statement) :
    applyBinding incoming pending operands = settle incoming.precedence pending operands := by
  induction pending generalizing operands with
  | nil => rfl
  | cons p pending ih =>
    cases p with
    | paren => rfl
    | operator op => simp only [applyBinding, settle, ih]

/-- Take off the parenthesis that the operators have been applied down to. -/
def popParen (s : Stacks) : Except ParseError Stacks :=
  match s.pending with
  | .paren :: pending => .ok ⟨s.operands, pending⟩
  | _ => .error .unbalancedParentheses

/-- The operands, once nothing is pending. -/
def popOperands (s : Stacks) : Except ParseError (List Statement) :=
  match s.pending with
  | [] => .ok s.operands
  | _ => .error .unbalancedParentheses

theorem closeParen_eq_settle (pending : List Pending) (operands : List Statement) :
    closeParen pending operands = settle 0 pending operands >>= popParen := by
  induction pending generalizing operands with
  | nil => rfl
  | cons p pending ih =>
    cases p with
    | paren => rfl
    | operator op =>
      rw [closeParen, settle, if_neg (Nat.not_lt_zero _)]
      simp only [ih, bind_assoc]

theorem applyAll_eq_settle (pending : List Pending) (operands : List Statement) :
    applyAll pending operands = settle 0 pending operands >>= popOperands := by
  induction pending generalizing operands with
  | nil => rfl
  | cons p pending ih =>
    cases p with
    | paren => rfl
    | operator op =>
      rw [applyAll, settle, if_neg (Nat.not_lt_zero _)]
      simp only [ih, bind_assoc]

/-- The statement that is the only operand. -/
def onlyOperand : List Statement → Except ParseError Statement
  | [] => .error .empty
  | [value] => .ok value
  | _ => .error .missingOperator

theorem finish_eq_settle (s : Stacks) :
    s.finish = settle 0 s.pending s.operands >>= fun s => popOperands s >>= onlyOperand := by
  rw [finish, applyAll_eq_settle, bind_assoc]
  refine congrArg _ (funext fun s => congrArg _ (funext fun operands => ?_))
  match operands with
  | [] => rfl
  | [_] => rfl
  | _ :: _ :: _ => rfl

/-- No pending operator down to a parenthesis would be applied by one of the given
precedence. -/
def Waits (level : ℕ) : List Pending → Prop
  | .operator op :: _ => op.precedence < level
  | _ => True

theorem settle_of_waits {level : ℕ} {pending : List Pending} (h : Waits level pending)
    (operands : List Statement) : settle level pending operands = .ok ⟨operands, pending⟩ := by
  match pending with
  | [] => rfl
  | .paren :: _ => rfl
  | .operator op :: _ =>
    rw [settle]
    exact if_pos h

theorem Waits.mono {level level' : ℕ} {pending : List Pending} (h : Waits level pending)
    (hle : level ≤ level') : Waits level' pending := by
  match pending with
  | [] => trivial
  | .paren :: _ => trivial
  | .operator _ :: _ => exact lt_of_lt_of_le h hle

theorem settle_operator {low : ℕ} {op : Operator} (hlow : low ≤ op.precedence)
    (pending : List Pending) (a b : Statement) (operands : List Statement) :
    settle low (.operator op :: pending) (b :: a :: operands)
      = combine op a b >>= fun c => settle low pending (c :: operands) := by
  rw [settle, if_neg (Nat.not_lt.2 hlow)]
  cases a <;> cases b <;> rfl

/-- What the pieces of a part of an expression leave behind. -/
theorem Pieces.foldlM_step {level : ℕ} {e : Expression Operator} {ps : List Piece}
    (h : Pieces level e ps) {low : ℕ} (hlow : low ≤ level) {pending : List Pending}
    (hpending : Waits level pending) (operands : List Statement) :
    ((ps.map Piece.token).foldlM step ⟨operands, pending⟩ >>= fun s =>
        settle low s.pending s.operands)
      = e.evaluate >>= fun a => settle low pending (a :: operands) := by
  induction h generalizing low pending operands with
  | operand o => rfl
  | @binary level op left right ps qs hlevel hleft hright ihleft ihright =>
    have hwaits := hpending.mono hlevel
    have hop : Waits (op.precedence + 1) (.operator op :: pending) := Nat.lt_succ_self _
    calc ((ps ++ .operator op :: qs).map Piece.token).foldlM step ⟨operands, pending⟩ >>=
          (fun s => settle low s.pending s.operands)
        = ((ps.map Piece.token).foldlM step ⟨operands, pending⟩ >>= fun s =>
            settle op.precedence s.pending s.operands) >>= fun s =>
            (qs.map Piece.token).foldlM step ⟨s.operands, .operator op :: s.pending⟩ >>= fun s =>
            settle low s.pending s.operands := by
          rw [List.map_append, List.map_cons, List.foldlM_append]
          simp only [List.foldlM_cons, Piece.token, step, applyBinding_eq_settle, bind_assoc,
            pure_bind]
      _ = left.evaluate >>= fun a =>
            (qs.map Piece.token).foldlM step ⟨a :: operands, .operator op :: pending⟩ >>= fun s =>
            settle low s.pending s.operands := by
          rw [ihleft le_rfl hwaits, bind_assoc]
          simp only [settle_of_waits hwaits]
          rfl
      _ = left.evaluate >>= fun a => right.evaluate >>= fun b =>
            combine op a b >>= fun c => settle low pending (c :: operands) := by
          simp only [ihright (hlow.trans (hlevel.trans (Nat.le_succ _))) hop,
            settle_operator (hlow.trans hlevel)]
      _ = (Expression.binary op left right).evaluate >>= fun c =>
            settle low pending (c :: operands) := by
          simp only [evaluate, bind_assoc]
  | @parens level e ps he ih =>
    have hparen : Waits 0 (.paren :: pending) := trivial
    calc ((Piece.leftParen :: (ps ++ [.rightParen])).map Piece.token).foldlM step
          ⟨operands, pending⟩ >>= (fun s => settle low s.pending s.operands)
        = ((ps.map Piece.token).foldlM step ⟨operands, .paren :: pending⟩ >>= fun s =>
            settle 0 s.pending s.operands) >>= fun s => popParen s >>= fun s =>
            settle low s.pending s.operands := by
          rw [List.map_cons, List.map_append, List.map_cons, List.map_nil, List.foldlM_cons]
          simp only [Piece.token, step, List.foldlM_append, List.foldlM_cons, List.foldlM_nil,
            closeParen_eq_settle, bind_assoc, bind_pure]
          rfl
      _ = e.evaluate >>= fun a => settle low pending (a :: operands) := by
          rw [ih le_rfl hparen, bind_assoc]
          simp only [settle_of_waits hparen]
          rfl

/-- A text that renders an expression is read as what the expression makes. -/
theorem parse_of_renders {e : Expression Operator} {text : String} (h : e.Renders text) :
    Statement.parse text = e.evaluate := by
  obtain ⟨ps, hpieces, hspells⟩ := h
  obtain ⟨htokens, hinvalid⟩ := hspells.tokens_ofChars hpieces.separated 0
  have hwaits : Waits 0 [] := trivial
  have hrun := hpieces.foldlM_step le_rfl hwaits []
  rw [Statement.parse, Lexing.ofString, htokens, hinvalid, Statement.ofTokens?]
  calc ((ps.map Piece.token).foldlM step start >>= fun s => s.finish)
      = ((ps.map Piece.token).foldlM step ⟨[], []⟩ >>= fun s => settle 0 s.pending s.operands) >>=
          fun s => popOperands s >>= onlyOperand := by
        simp only [finish_eq_settle, bind_assoc]
        rfl
    _ = e.evaluate := by
        rw [hrun, bind_assoc]
        exact bind_pure _

end Expression

/-! ## Arithmetic -/

/-- An operator of arithmetic. -/
inductive Arithmetic where
  | plus
  | minus
  | times
  | divide
  deriving DecidableEq, Repr

namespace Arithmetic

def operator : Arithmetic → Operator
  | plus => .plus
  | minus => .minus
  | times => .times
  | divide => .divide

/-- The operation on standard forms. -/
def applyForm : Arithmetic → Form → Form → Form
  | plus => Form.add
  | minus => Form.sub
  | times => Form.mul
  | divide => Form.div

/-- The operation of a field, where a quotient by zero is zero. -/
def applyValue {K : Type*} [Field K] : Arithmetic → K → K → K
  | plus => (· + ·)
  | minus => (· - ·)
  | times => (· * ·)
  | divide => (· / ·)

end Arithmetic

namespace Operand

/-- The value of an operand: that of its variable, or the number that it denotes. -/
def value {K : Type*} [Field K] (v : String → K) : Operand → K
  | name n => v n.var
  | numeral n => n.value

theorem value_poly {K : Type*} [Field K] [CharZero K] (v : String → K) (o : Operand) :
    o.poly.value v = o.value v := by
  cases o with
  | name n => exact Poly.value_var v n.var
  | numeral n => exact Poly.value_constant v n.value

end Operand

namespace Expression

/-- Other operators in place of those of an expression. -/
def map {α β : Type} (f : α → β) : Expression α → Expression β
  | operand o => .operand o
  | binary op left right => .binary (f op) (left.map f) (right.map f)

/-- The standard form of an arithmetic expression. -/
def form : Expression Arithmetic → Form
  | operand o => .poly o.poly
  | binary op left right => op.applyForm left.form right.form

/-- The value of an arithmetic expression at a valuation of the variables. -/
def value {K : Type*} [Field K] (v : String → K) : Expression Arithmetic → K
  | operand o => o.value v
  | binary op left right => op.applyValue (left.value v) (right.value v)

/-- The equation of two arithmetic expressions. -/
def equation (left right : Expression Arithmetic) : Expression Operator :=
  .binary .equals (left.map Arithmetic.operator) (right.map Arithmetic.operator)

theorem evaluate_map (e : Expression Arithmetic) :
    (e.map Arithmetic.operator).evaluate = .ok (.value e.form) := by
  induction e with
  | operand o => rfl
  | binary op left right ihleft ihright =>
    rw [map, evaluate, ihleft, ihright]
    cases op <;> rfl

theorem evaluate_equation (left right : Expression Arithmetic) :
    (equation left right).evaluate = .ok (.equation ⟨left.form, right.form⟩) := by
  rw [equation, evaluate, evaluate_map, evaluate_map]
  rfl

/-- The standard form has the value of the expression. -/
theorem value_form {K : Type*} [Field K] [CharZero K] (v : String → K)
    (e : Expression Arithmetic) : e.form.value v = e.value v := by
  induction e with
  | operand o => exact o.value_poly v
  | binary op left right ihleft ihright =>
    rw [form, value, ← ihleft, ← ihright]
    cases op with
    | plus => exact Form.value_add _ _
    | minus => exact Form.value_sub _ _
    | times => exact Form.value_mul _ _
    | divide => exact Form.value_div _ _

theorem value_digit {K : Type*} [Field K] [CharZero K] (v : String → K) (c : Char)
    (h : c.isDigit = true) : (digit c h).value v = ((c.toNat - '0'.toNat : ℕ) : K) := by
  have hvalue : (Numeral.digit c h).value = ((c.toNat - '0'.toNat : ℕ) : ℚ) := by
    simp [Numeral.value, Numeral.digit, Numeral.fractionDigits, Decimal.ofDigits]
  change (((Numeral.digit c h).value : ℚ) : K) = _
  rw [hvalue, Rat.cast_natCast]

/-- The difference that is decided vanishes exactly where the sides agree. -/
theorem value_difference_eq_zero_iff {K : Type*} [Field K] [CharZero K] (v : String → K)
    (left right : Expression Arithmetic) :
    (left.form.sub right.form).value v = 0 ↔ left.value v = right.value v := by
  rw [Form.value_sub, value_form, value_form, sub_eq_zero]

end Expression
end Meadow
