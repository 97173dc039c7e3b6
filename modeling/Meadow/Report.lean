import Meadow.CaseSplit
import Meadow.Statement.Parser

set_option autoImplicit false

/-!
# Proof reports

A report says what became of one line of input: an equation is proven or refuted, a
value is simplified, and anything else is an error.
-/

namespace Meadow

/-- The result of a line of input. -/
inductive Outcome where
  | proven
  | refuted (counterexample : Case) (residue : String)
  | simplified (form : String)
  | error (message : String)
  deriving DecidableEq, Repr

/-- The outcome of a decision. -/
def Outcome.ofDecision : Decision → Outcome
  | .proven => .proven
  | .refuted case residue => .refuted case residue.render

/-- What is reported about a line of input: the equation as it was read and the
standard form of its difference, or the standard form of a value. -/
structure Report where
  input : String
  equation : Option String
  standardForm : Option String
  outcome : Outcome
  deriving DecidableEq, Repr

namespace Report

/-- A report of nothing but an error. -/
def failure (input message : String) : Report := ⟨input, none, none, .error message⟩

/-- True for an equation that is proven, false for one that is refuted, and nothing
otherwise. -/
def verdict (r : Report) : Option Bool :=
  match r.outcome with
  | .proven => some true
  | .refuted _ _ => some false
  | .simplified _ | .error _ => none

end Report

/-- Read a line of input and decide it, with a limit for the number of variables. -/
def prove (limit : Nat) (input : String) : Report :=
  match Statement.parse input with
  | .error e => .failure input e.message
  | .ok (.value f) => ⟨input, none, some f.render, .simplified f.render⟩
  | .ok (.equation e) =>
    let difference := e.difference
    match difference.decide limit with
    | .error e => .failure input e.message
    | .ok d => ⟨input, some e.render, some difference.render, .ofDecision d⟩

end Meadow
