import Meadow.Form.Eval

set_option autoImplicit false

/-!
# Deciding by cases

A form is zero everywhere if it evaluates to zero in every case, a case saying of
each of its variables whether it is zero.  The cases are numbered, the digits of the
number telling in increasing order of the variables which are not zero; the first
case in which something else is left is a counterexample.
-/

namespace Meadow

/-- What a case assumes of a variable. -/
inductive VariableCase where
  | zero
  | nonzero
  deriving DecidableEq, Repr

namespace VariableCase

/-- The name of the assumption. -/
def label : VariableCase → String
  | zero => "zero"
  | nonzero => "nonzero"

end VariableCase

/-- A case: what is assumed of each variable, in increasing order of the names. -/
structure Case where
  cases : List (String × VariableCase)
  deriving DecidableEq, Repr

namespace Case

/-- The case with a given number. -/
def ofNumber (vars : List String) (n : Nat) : Case :=
  ⟨vars.zipIdx.map fun v => (v.1, if n.testBit v.2 then .nonzero else .zero)⟩

/-- The variables of which a case assumes `a`. -/
def varsWith (c : Case) (a : VariableCase) : List String :=
  (c.cases.filter fun v => v.2 = a).map Prod.fst

/-- The assumptions of the case. -/
def assumptions (c : Case) : Assumptions :=
  .ofVars (c.varsWith .zero) (c.varsWith .nonzero)

/-- The text of a case, such as `x: zero, y: nonzero` in braces. -/
def render (c : Case) : String :=
  "\x7b" ++ ", ".intercalate (c.cases.map fun v => v.1 ++ ": " ++ v.2.label) ++ "\x7d"

end Case

/-- Whether a form is zero everywhere. -/
inductive Decision where
  /-- It is zero in every case. -/
  | proven
  /-- In this case something is left that need not be zero. -/
  | refuted (counterexample : Case) (residue : Form)
  deriving DecidableEq

/-- More variables than the limit allows. -/
structure TooManyVariables where
  count : Nat
  limit : Nat
  deriving DecidableEq, Repr

/-- The text of the error. -/
def TooManyVariables.message (e : TooManyVariables) : String :=
  "too many variables: " ++ toString e.count ++ " (limit is " ++ toString e.limit ++ ")"

/-- Look through so many cases from number `n` on. -/
def Form.decideFrom (f : Form) (vars : List String) : Nat → Nat → Decision
  | 0, _ => .proven
  | remaining + 1, n =>
    let case := Case.ofNumber vars n
    let residue := f.eval case.assumptions
    if residue.isZero then decideFrom f vars remaining (n + 1)
    else .refuted case residue

/-- Decide whether a form is zero everywhere, unless it has more variables than the
limit. -/
def Form.decide (limit : Nat) (f : Form) : Except TooManyVariables Decision :=
  let vars := f.vars
  if limit < vars.length then .error ⟨vars.length, limit⟩
  else .ok (f.decideFrom vars (Nat.pow 2 vars.length) 0)

end Meadow
