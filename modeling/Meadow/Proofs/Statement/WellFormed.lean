import Mathlib
import Meadow.Proofs.Form.WellFormed
import Meadow.Proofs.Statement.Infix

set_option autoImplicit false

/-!
# What is read is well formed

What is true of operands, and of what an operator makes of two forms that it is true of, is
true of everything that is read (`Statement.of_parse`): the stacks hold nothing else.  For
well-formed forms, with what the operations keep, this is the invariant of the whole
library (`Form.wellFormed_invariant`).
-/

namespace Meadow

/-! ## An invariant of the stacks -/

section Invariant

variable {P : Statement → Prop}

/-- Operators keep a property of statements. -/
def KeptByOperators (P : Statement → Prop) : Prop :=
  ∀ (op : Operator) (a b : Form), P (.value a) → P (.value b) → P (op.apply a b)

namespace Stacks

theorem forall_applyTop (hop : KeptByOperators P) {op : Operator}
    {operands rest : List Statement} (hall : ∀ s ∈ operands, P s)
    (h : applyTop op operands = .ok rest) : ∀ s ∈ rest, P s := by
  unfold applyTop at h
  split at h
  · next b a rest =>
    cases h
    have hb := hall _ List.mem_cons_self
    have ha := hall _ (List.mem_cons_of_mem _ List.mem_cons_self)
    refine List.forall_mem_cons.2 ⟨hop op a b ha hb, fun s hs => ?_⟩
    exact hall s (List.mem_cons_of_mem _ (List.mem_cons_of_mem _ hs))
  · cases h
  · cases h

theorem forall_applyBinding (hop : KeptByOperators P) {incoming : Operator}
    {pending : List Pending} {operands : List Statement} {s : Stacks}
    (hall : ∀ s ∈ operands, P s) (h : applyBinding incoming pending operands = .ok s) :
    ∀ t ∈ s.operands, P t := by
  induction pending generalizing operands with
  | nil =>
    cases h
    exact hall
  | cons p pending ih =>
    cases p with
    | paren =>
      cases h
      exact hall
    | operator op =>
      unfold applyBinding at h
      split at h
      · cases h
        exact hall
      · obtain ⟨rest, htop, hrest⟩ := exists_of_bind_eq_ok h
        exact ih (forall_applyTop hop hall htop) hrest

theorem forall_closeParen (hop : KeptByOperators P) {pending : List Pending}
    {operands : List Statement} {s : Stacks} (hall : ∀ s ∈ operands, P s)
    (h : closeParen pending operands = .ok s) : ∀ t ∈ s.operands, P t := by
  induction pending generalizing operands with
  | nil => cases h
  | cons p pending ih =>
    cases p with
    | paren =>
      cases h
      exact hall
    | operator op =>
      obtain ⟨rest, htop, hrest⟩ := exists_of_bind_eq_ok h
      exact ih (forall_applyTop hop hall htop) hrest

theorem forall_applyAll (hop : KeptByOperators P) {pending : List Pending}
    {operands rest : List Statement} (hall : ∀ s ∈ operands, P s)
    (h : applyAll pending operands = .ok rest) : ∀ s ∈ rest, P s := by
  induction pending generalizing operands with
  | nil =>
    cases h
    exact hall
  | cons p pending ih =>
    cases p with
    | paren => cases h
    | operator op =>
      obtain ⟨rest', htop, hrest⟩ := exists_of_bind_eq_ok h
      exact ih (forall_applyTop hop hall htop) hrest

variable (hoperand : ∀ p, P (.value (.poly p)))

include hoperand in
theorem forall_step (hop : KeptByOperators P) {s s' : Stacks} {t : Token}
    (hall : ∀ x ∈ s.operands, P x) (h : s.step t = .ok s') : ∀ x ∈ s'.operands, P x := by
  cases t with
  | operand p =>
    cases h
    exact List.forall_mem_cons.2 ⟨hoperand p, hall⟩
  | operator op =>
    obtain ⟨s₁, hbinding, hs₁⟩ := exists_of_bind_eq_ok h
    cases hs₁
    have hoperands := forall_applyBinding hop hall hbinding
    exact hoperands
  | leftParen =>
    cases h
    exact hall
  | rightParen => exact forall_closeParen hop hall h

include hoperand in
theorem forall_foldlM_step (hop : KeptByOperators P) {ts : List Token} {s s' : Stacks}
    (hall : ∀ x ∈ s.operands, P x) (h : ts.foldlM step s = .ok s') :
    ∀ x ∈ s'.operands, P x :=
  of_foldlM_eq_ok (P := fun s => ∀ x ∈ s.operands, P x)
    (fun _ _ _ hs hstep => forall_step hoperand hop hs hstep) h hall

end Stacks

/-- What is true of operands and kept by operators is true of what is read. -/
theorem Statement.of_parse (hoperand : ∀ p, P (.value (.poly p))) (hop : KeptByOperators P)
    {text : String} {statement : Statement} (h : parse text = .ok statement) : P statement := by
  obtain ⟨s, hs, hfinish⟩ := exists_of_bind_eq_ok h
  have hall := Stacks.forall_foldlM_step hoperand hop (List.forall_mem_nil _) hs
  split at hfinish
  · cases hfinish
  · obtain ⟨operands, happly, hlast⟩ := exists_of_bind_eq_ok hfinish
    have hoperands := Stacks.forall_applyAll hop hall happly
    split at hlast
    · cases hlast
    · cases hlast
      exact hoperands _ List.mem_cons_self
    · cases hlast

end Invariant

/-! ## Well-formed statements -/

/-- The value, or both sides of the equation, are well formed. -/
def Statement.WellFormed : Statement → Prop
  | value f => f.WellFormed
  | equation q => q.lhs.WellFormed ∧ q.rhs.WellFormed

theorem Statement.wellFormed_apply : KeptByOperators Statement.WellFormed := by
  intro op a b ha hb
  cases op with
  | equals => exact ⟨ha, hb⟩
  | plus => exact Form.WellFormed.add ha hb
  | minus => exact Form.WellFormed.sub ha b
  | times => exact Form.WellFormed.mul ha hb
  | divide => exact Form.WellFormed.div ha b

/-- All operations on well-formed forms give well-formed forms, evaluation under any
assumptions does, and what is read is well formed: a value, or the sides of an equation and
their difference. -/
theorem Form.wellFormed_invariant :
    (∀ a : Form, a.WellFormed → a.neg.WellFormed) ∧
    (∀ a b : Form, a.WellFormed → b.WellFormed → (a.add b).WellFormed ∧ (a.sub b).WellFormed ∧
      (a.mul b).WellFormed ∧ (a.div b).WellFormed) ∧
    (∀ (a : Form) (assumptions : Assumptions), a.WellFormed → (a.eval assumptions).WellFormed) ∧
    (∀ (text : String) (f : Form), Statement.parse text = .ok (.value f) → f.WellFormed) ∧
    ∀ (text : String) (q : Equation), Statement.parse text = .ok (.equation q) →
      q.lhs.WellFormed ∧ q.rhs.WellFormed ∧ q.difference.WellFormed := by
  have hparse {text : String} {statement : Statement} (h : Statement.parse text = .ok statement) :
      statement.WellFormed :=
    Statement.of_parse Form.wellFormed_poly Statement.wellFormed_apply h
  refine ⟨fun a _ => wellFormed_neg a, fun a b ha hb => ?_, fun a s _ => wellFormed_eval a s,
    fun text f h => hparse h, fun text q h => ?_⟩
  · exact ⟨ha.add hb, ha.sub b, ha.mul hb, ha.div b⟩
  · obtain ⟨hlhs, hrhs⟩ := hparse h
    exact ⟨hlhs, hrhs, hlhs.sub q.rhs⟩

end Meadow
