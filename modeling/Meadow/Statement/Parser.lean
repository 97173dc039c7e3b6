import Meadow.Statement.Basic
import Meadow.Token.Lexeme

set_option autoImplicit false

/-!
# Reading a statement

Operators wait on a stack, and the values found so far on another.  An operator is
applied to the two topmost values as soon as one that binds no tighter follows, or
the parenthesis around it closes, or the input ends; so a value is brought into
standard form while it is read.

The first thing wrong from left to right is reported, be it a character that starts
no lexeme or an operator that cannot be applied.
-/

namespace Meadow

/-- Why a text is no statement. -/
inductive ParseError where
  /-- A parenthesis without its partner. -/
  | unbalancedParentheses
  /-- An operator with fewer than two values. -/
  | unexpectedOperator (op : Operator)
  /-- Values that nothing joins. -/
  | missingOperator
  /-- A character that starts no lexeme. -/
  | invalidCharacter (c : InvalidCharacter)
  /-- No value at all. -/
  | empty
  /-- An equation where a value has to stand. -/
  | equationOperand (op : Operator)
  deriving DecidableEq, Repr

/-- The text of the error. -/
def ParseError.message : ParseError → String
  | unbalancedParentheses => "Unbalanced parentheses"
  | unexpectedOperator op => "Unexpected operator '" ++ op.symbol.toString ++ "'"
  | missingOperator => "Missing operator between operands"
  | invalidCharacter c =>
    "Invalid character '" ++ c.char.toString ++ "' at position " ++ toString c.position
  | empty => "Empty expression"
  | equationOperand op =>
    "Equation cannot be used as an operand of '" ++ op.symbol.toString ++ "'"

/-- The value of an operator applied to two values; an equality makes an equation of
them. -/
def Operator.apply : Operator → Form → Form → Statement
  | .equals, a, b => .equation ⟨a, b⟩
  | .plus, a, b => .value (a.add b)
  | .minus, a, b => .value (a.sub b)
  | .times, a, b => .value (a.mul b)
  | .divide, a, b => .value (a.div b)

/-- What waits on the stack of operators. -/
inductive Pending where
  | paren
  | operator (op : Operator)
  deriving DecidableEq, Repr

/-- The stacks, the topmost entry first. -/
structure Stacks where
  operands : List Statement
  pending : List Pending
  deriving DecidableEq

namespace Stacks

/-- The stacks before the first token. -/
def start : Stacks := ⟨[], []⟩

/-- Apply an operator to the two topmost operands. -/
def applyTop (op : Operator) : List Statement → Except ParseError (List Statement)
  | .value b :: .value a :: rest => .ok (op.apply a b :: rest)
  | _ :: _ :: _ => .error (.equationOperand op)
  | _ => .error (.unexpectedOperator op)

/-- Apply the pending operators that bind no less tightly than an incoming one, down
to a parenthesis. -/
def applyBinding (incoming : Operator) : List Pending → List Statement → Except ParseError Stacks
  | .operator op :: pending, operands =>
    if op.precedence < incoming.precedence then .ok ⟨operands, .operator op :: pending⟩
    else do applyBinding incoming pending (← applyTop op operands)
  | pending, operands => .ok ⟨operands, pending⟩

/-- Apply the pending operators down to a parenthesis, and take it off. -/
def closeParen : List Pending → List Statement → Except ParseError Stacks
  | [], _ => .error .unbalancedParentheses
  | .paren :: pending, operands => .ok ⟨operands, pending⟩
  | .operator op :: pending, operands => do closeParen pending (← applyTop op operands)

/-- Apply all pending operators; no parenthesis may be left. -/
def applyAll : List Pending → List Statement → Except ParseError (List Statement)
  | [], operands => .ok operands
  | .paren :: _, _ => .error .unbalancedParentheses
  | .operator op :: pending, operands => do applyAll pending (← applyTop op operands)

/-- Take in one more token. -/
def step (s : Stacks) : Token → Except ParseError Stacks
  | .operand p => .ok ⟨.value (.poly p) :: s.operands, s.pending⟩
  | .operator op => do
    let s ← applyBinding op s.pending s.operands
    return ⟨s.operands, .operator op :: s.pending⟩
  | .leftParen => .ok ⟨s.operands, .paren :: s.pending⟩
  | .rightParen => closeParen s.pending s.operands

/-- The statement that is left when all tokens are in. -/
def finish (s : Stacks) : Except ParseError Statement := do
  match ← applyAll s.pending s.operands with
  | [] => .error .empty
  | [value] => .ok value
  | _ => .error .missingOperator

end Stacks

namespace Statement

/-- The statement that tokens make, which an invalid character may cut short. -/
def ofTokens? (tokens : List Token) (invalid : Option InvalidCharacter) :
    Except ParseError Statement := do
  let s ← tokens.foldlM Stacks.step Stacks.start
  match invalid with
  | some c => .error (.invalidCharacter c)
  | none => s.finish

/-- The statement that a text makes. -/
def parse (text : String) : Except ParseError Statement :=
  let lexing := Lexing.ofString text
  ofTokens? lexing.tokens lexing.invalid

end Statement
end Meadow
