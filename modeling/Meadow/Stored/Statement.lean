import Meadow.Report
import Meadow.Stored.Eval

set_option autoImplicit false

/-!
# Reading and proving over stored forms

Operators are applied to stored forms while a text is read, token by token, and the proof of a
line is a computation of a machine that ends with a report.
-/

namespace Meadow.Stored

/-! ## Operands -/

/-- A monomial put into words, each exponent modulo their number. -/
def Monomial.store (m : Meadow.Monomial) : Monomial :=
  ⟨m.powers.map fun p => (p.1, UInt32.ofNat p.2)⟩

/-- A polynomial put into words. -/
def Poly.store (p : Meadow.Poly) : Poly :=
  .ofTerms (p.terms.map fun t => (.store t.1, t.2))

/-! ## Statements -/

/-- An equation of two forms. -/
structure Equation where
  lhs : Form
  rhs : Form
  deriving DecidableEq

namespace Equation

/-- The difference of the sides. -/
def difference (e : Equation) : Machine Form := e.lhs.sub e.rhs

/-- The names of the variables of both sides, in increasing order. -/
def vars (e : Equation) : List String := (FinSet.union e.lhs.varSet e.rhs.varSet).toList

/-- The text of an equation. -/
def render (e : Equation) : Machine String :=
  return (← e.lhs.render) ++ " = " ++ (← e.rhs.render)

end Equation

/-- An equation or a value. -/
inductive Statement where
  | equation (e : Equation)
  | value (f : Form)
  deriving DecidableEq

/-- The value of an operator applied to two values; an equality makes an equation of them. -/
def apply : Operator → Form → Form → Machine Statement
  | .equals, a, b => return .equation ⟨a, b⟩
  | .plus, a, b => return .value (← a.add b)
  | .minus, a, b => return .value (← a.sub b)
  | .times, a, b => return .value (← a.mul b)
  | .divide, a, b => return .value (← a.div b)

/-- A computation that may also end with an error of the text. -/
abbrev Reading (α : Type) : Type := ExceptT ParseError (ReaderT Build (ExceptT Fault Option)) α

/-- The stacks, the topmost entry first. -/
structure Stacks where
  operands : List Statement
  pending : List Pending
  deriving DecidableEq

namespace Stacks

/-- The stacks before the first token. -/
def start : Stacks := ⟨[], []⟩

/-- Apply an operator to the two topmost operands. -/
def applyTop (op : Operator) : List Statement → Reading (List Statement)
  | .value b :: .value a :: rest => return (← apply op a b) :: rest
  | _ :: _ :: _ => throw (.equationOperand op)
  | _ => throw (.unexpectedOperator op)

/-- Apply the pending operators that bind no less tightly than an incoming one, down to a
parenthesis. -/
def applyBinding (incoming : Operator) : List Pending → List Statement → Reading Stacks
  | .operator op :: pending, operands =>
    if op.precedence < incoming.precedence then return ⟨operands, .operator op :: pending⟩
    else do applyBinding incoming pending (← applyTop op operands)
  | pending, operands => return ⟨operands, pending⟩

/-- Apply the pending operators down to a parenthesis, and take it off. -/
def closeParen : List Pending → List Statement → Reading Stacks
  | [], _ => throw .unbalancedParentheses
  | .paren :: pending, operands => return ⟨operands, pending⟩
  | .operator op :: pending, operands => do closeParen pending (← applyTop op operands)

/-- Apply all pending operators; no parenthesis may be left. -/
def applyAll : List Pending → List Statement → Reading (List Statement)
  | [], operands => return operands
  | .paren :: _, _ => throw .unbalancedParentheses
  | .operator op :: pending, operands => do applyAll pending (← applyTop op operands)

/-- Take in one more token. -/
def step (s : Stacks) : Token → Reading Stacks
  | .operand p => return ⟨.value (.poly (.store p)) :: s.operands, s.pending⟩
  | .operator op => do
    let s ← applyBinding op s.pending s.operands
    return ⟨s.operands, .operator op :: s.pending⟩
  | .leftParen => return ⟨s.operands, .paren :: s.pending⟩
  | .rightParen => closeParen s.pending s.operands

/-- The statement that is left when all tokens are in. -/
def finish (s : Stacks) : Reading Statement := do
  match ← applyAll s.pending s.operands with
  | [] => throw .empty
  | [value] => return value
  | _ => throw .missingOperator

/-- Take in the tokens of a text that follows so many other characters, as they are read. -/
def readFrom (position : Nat) (cs : List Char) (s : Stacks) : Reading Stacks := do
  match cs.dropWhile Unicode.isBlank with
  | [] => return s
  | c :: rest =>
    let position := position + (cs.takeWhile Unicode.isBlank).length
    match Lexeme.read? c rest with
    | none => throw (.invalidCharacter ⟨c, position⟩)
    | some l =>
      (← s.step l.token) |>.readFrom (position + l.text.length) ((c :: rest).drop l.text.length)
partial_fixpoint

end Stacks

/-- The statement that a text makes. -/
def Statement.parse (text : String) : Reading Statement := do
  (← Stacks.start.readFrom 0 text.toList).finish

/-! ## Reports -/

/-- The outcome of a decision. -/
def outcome : Decision → Machine Outcome
  | .proven => return .proven
  | .refuted case residue => return .refuted case (← residue.render)

/-- Read a line of input and decide it, with a limit for the number of variables. -/
def prove (limit : Nat) (input : String) : Machine Report := do
  match ← (Statement.parse input).run with
  | .error e => return .failure input e.message
  | .ok (.value f) =>
    let form ← f.render
    return ⟨input, none, some form, .simplified form⟩
  | .ok (.equation e) =>
    let difference ← e.difference
    match ← difference.decide limit with
    | .error e => return .failure input e.message
    | .ok d =>
      let outcome ← outcome d
      return ⟨input, some (← e.render), some (← difference.render), outcome⟩

end Meadow.Stored
