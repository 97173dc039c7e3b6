import Mathlib
import Meadow.Proofs.Statement.Expression

set_option autoImplicit false

/-!
# What a rendered expression is read as

From the bottom up, an expression makes a value or an equation, unless one of its operators
finds an equation among its operands.  A text that renders the expression is read as what
the expression makes, and it is refused for the first such operator in the order of
application (`Expression.parse_renders_iff`): the operators of the left operand come first,
then those of the right one, then the operator between them.
-/

namespace Meadow

/-- Is the statement an equation? -/
def Statement.isEquation : Statement → Bool
  | equation _ => true
  | value _ => false

namespace Expression

/-! ## From the bottom up -/

/-- What an expression makes: a form by the operations of arithmetic, and an equation of two
forms by an equality.  Nothing is made of an equation. -/
inductive Makes : Expression Operator → Statement → Prop
  | operand (o : Operand) : Makes (.operand o) (.value (.poly o.poly))
  | arithmetic (op : Arithmetic) {left right : Expression Operator} {a b : Form}
      (hleft : Makes left (.value a)) (hright : Makes right (.value b)) :
      Makes (.binary op.operator left right) (.value (op.applyForm a b))
  | equation {left right : Expression Operator} {a b : Form}
      (hleft : Makes left (.value a)) (hright : Makes right (.value b)) :
      Makes (.binary .equals left right) (.equation ⟨a, b⟩)

/-- What an expression makes is what it evaluates to. -/
theorem Makes.evaluate {e : Expression Operator} {s : Statement} (h : e.Makes s) :
    e.evaluate = .ok s := by
  induction h with
  | operand o => rfl
  | arithmetic op hleft hright ihleft ihright =>
    rw [Expression.evaluate, ihleft, ihright]
    cases op <;> rfl
  | equation hleft hright ihleft ihright =>
    rw [Expression.evaluate, ihleft, ihright]
    rfl

/-- An operator between forms makes what it stands for. -/
theorem makes_apply (op : Operator) {left right : Expression Operator} {a b : Form}
    (hleft : left.Makes (.value a)) (hright : right.Makes (.value b)) :
    (binary op left right).Makes (op.apply a b) := by
  cases op with
  | equals => exact .equation hleft hright
  | plus => exact .arithmetic .plus hleft hright
  | minus => exact .arithmetic .minus hleft hright
  | times => exact .arithmetic .times hleft hright
  | divide => exact .arithmetic .divide hleft hright

/-! ## The order of application -/

/-- An operator that is applied to two parts of an expression. -/
structure Application where
  op : Operator
  left : Expression Operator
  right : Expression Operator

/-- Is the expression an equation? -/
def isEquation : Expression Operator → Bool
  | binary .equals _ _ => true
  | _ => false

theorem isEquation_apply (op : Operator) (a b : Form) (left right : Expression Operator) :
    (op.apply a b).isEquation = (binary op left right).isEquation := by
  cases op <;> rfl

/-- Does the operator have an equation among its operands? -/
def Application.takesEquation (a : Application) : Bool := a.left.isEquation || a.right.isEquation

/-- The operators of an expression in the order of their application: those of its operands
from left to right, and the operator between them last. -/
def applications : Expression Operator → List Application
  | operand _ => []
  | binary op left right => left.applications ++ (right.applications ++ [⟨op, left, right⟩])

/-- The first operator that has an equation among its operands. -/
def firstRefused (e : Expression Operator) : Option Application :=
  e.applications.find? Application.takesEquation

theorem firstRefused_binary (op : Operator) (left right : Expression Operator) :
    (binary op left right).firstRefused
      = left.firstRefused.or (right.firstRefused.or
          (if left.isEquation || right.isEquation then some ⟨op, left, right⟩ else none)) := by
  simp only [firstRefused, applications, List.find?_append, List.find?_singleton,
    Application.takesEquation]
  rfl

/-- Either no operator takes an equation, and the expression makes a statement, an equation
if it is one; or it evaluates to the error of the first operator that does. -/
theorem evaluate_cases (e : Expression Operator) :
    (e.firstRefused = none ∧ ∃ s, e.Makes s ∧ s.isEquation = e.isEquation) ∨
      ∃ r, e.firstRefused = some r ∧ e.evaluate = .error (.equationOperand r.op) := by
  induction e with
  | operand o => exact Or.inl ⟨rfl, _, .operand o, rfl⟩
  | binary op left right ihleft ihright =>
    rw [firstRefused_binary, evaluate]
    obtain ⟨hleft, s, hs, heqs⟩ | ⟨r, hr, heval⟩ := ihleft
    · obtain ⟨hright, t, ht, heqt⟩ | ⟨r, hr, heval⟩ := ihright
      · rw [hleft, hright, ← heqs, ← heqt, hs.evaluate, ht.evaluate]
        -- both operands are statements, and only two forms make one
        cases s with
        | equation p => exact Or.inr ⟨_, rfl, rfl⟩
        | value a =>
          cases t with
          | equation q => exact Or.inr ⟨_, rfl, rfl⟩
          | value b => exact Or.inl ⟨rfl, _, makes_apply op hs ht, isEquation_apply op a b _ _⟩
      · rw [hleft, hr, hs.evaluate, heval]
        exact Or.inr ⟨r, rfl, rfl⟩
    · rw [hr, heval]
      exact Or.inr ⟨r, rfl, rfl⟩

/-! ## What a text is read as -/

/-- Equality binds least, sums and differences bind less than products and quotients, and a
text that renders an expression is read accordingly: as the statement that the expression
makes, and if one of its operators takes an equation, as the error of the first one. -/
theorem parse_renders_iff :
    (Operator.equals.precedence < Operator.plus.precedence ∧
      Operator.plus.precedence = Operator.minus.precedence ∧
      Operator.minus.precedence < Operator.times.precedence ∧
      Operator.times.precedence = Operator.divide.precedence) ∧
    ∀ (e : Expression Operator) (text : String), e.Renders text →
      (∀ s, Statement.parse text = .ok s ↔ e.Makes s) ∧
      ∀ err, Statement.parse text = .error err ↔
        ∃ r, e.firstRefused = some r ∧ err = .equationOperand r.op := by
  refine ⟨by decide, fun e text h => ?_⟩
  rw [parse_of_renders h]
  rcases e.evaluate_cases with ⟨hnone, s, hs, -⟩ | ⟨r, hr, heval⟩
  · have heval := hs.evaluate
    refine ⟨fun t => ⟨?_, Makes.evaluate⟩, fun err => ?_⟩
    · intro ht
      rw [heval] at ht
      cases ht
      exact hs
    · rw [heval, hnone]
      simp
  · refine ⟨fun t => ⟨?_, Makes.evaluate⟩, fun err => ?_⟩
    · intro ht
      rw [heval] at ht
      cases ht
    · rw [heval, hr]
      simp [eq_comm]

/-- In `a - b - (c = d)*e` the product takes an equation, and so it is refused before the
second difference. -/
theorem parse_renders_iff_nested :
    let e : Expression Operator := .binary .minus (.binary .minus (letter 'a') (letter 'b'))
      (.binary .times (.binary .equals (letter 'c') (letter 'd')) (letter 'e'))
    e.Renders "a - b - (c = d)*e" ∧
      Statement.parse "a - b - (c = d)*e" = .error (.equationOperand .times) := by
  intro e
  have hproduct : Pieces 2 (.binary .times (.binary .equals (letter 'c') (letter 'd')) (letter 'e'))
      _ := .binary le_rfl (.parens (.binary le_rfl (.operand _) (.operand _))) (.operand _)
  have hpieces : Pieces 0 e _ :=
    .binary (Nat.zero_le _) (.binary le_rfl (.operand _) (.operand _)) hproduct
  have hend : Spells [] [] := .blank (List.forall_mem_nil _)
  have h : e.Renders "a - b - (c = d)*e" := ⟨_, hpieces,
    hend.adjacent.adjacent.adjacent.spaced.spaced.adjacent.spaced.spaced.spaced.spaced.adjacent⟩
  exact ⟨h, ((parse_renders_iff.2 e _ h).2 _).2 ⟨_, rfl, rfl⟩⟩

end Expression
end Meadow
