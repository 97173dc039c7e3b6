import Mathlib
import Meadow.Proofs.Statement.Infix
import Meadow.Proofs.Token.Lexeme

set_option autoImplicit false

/-!
# What the errors of reading tell

Parentheses are balanced if each closing one has an opening one before it, and each opening
one is closed.  What comes of reading tokens tells whether they are, and how the operands
compare with the operators in number (`Statement.diagnosis_ofTokens?`), unless it blames an
operator that was applied to too few values or to an equation.
-/

namespace Meadow

/-! ## Balanced parentheses -/

namespace Token

/-- How many parentheses are open behind tokens. -/
def depthOf (ts : List Token) : ℤ := (ts.map depth).sum

theorem depthOf_append (ts us : List Token) : depthOf (ts ++ us) = depthOf ts + depthOf us := by
  rw [depthOf, List.map_append, List.sum_append, depthOf, depthOf]

theorem depthOf_cons (t : Token) (ts : List Token) : depthOf (t :: ts) = t.depth + depthOf ts := by
  rw [depthOf, List.map_cons, List.sum_cons, depthOf]

theorem depthOf_singleton (t : Token) : depthOf [t] = t.depth := by
  rw [depthOf_cons, depthOf, List.map_nil, List.sum_nil, add_zero]

theorem eq_rightParen_of_depth_neg {t : Token} (h : t.depth < 0) :
    t = rightParen ∧ t.depth = -1 := by
  cases t with
  | rightParen => exact ⟨rfl, rfl⟩
  | leftParen => exact absurd h (by decide)
  | operand p => exact absurd h (lt_irrefl 0)
  | operator op => exact absurd h (lt_irrefl 0)

theorem eq_leftParen_of_depth_pos {t : Token} (h : 0 < t.depth) :
    t = leftParen ∧ t.depth = 1 := by
  cases t with
  | leftParen => exact ⟨rfl, rfl⟩
  | rightParen => exact absurd h (by decide)
  | operand p => exact absurd h (lt_irrefl 0)
  | operator op => exact absurd h (lt_irrefl 0)

end Token

/-- Up to no place more parentheses are closed than opened, and in the end equally many. -/
structure Balanced (ts : List Token) : Prop where
  depth_nonneg : ∀ us, us <+: ts → 0 ≤ Token.depthOf us
  depth_eq_zero : Token.depthOf ts = 0

/-- A closing parenthesis behind balanced ones closes nothing. -/
def HasStrayClosing (ts : List Token) : Prop :=
  ∃ us vs, ts = us ++ .rightParen :: vs ∧ Balanced us

/-- An opening parenthesis behind which no more are closed than opened is never closed. -/
def HasStrayOpening (ts : List Token) : Prop :=
  ∃ us vs, ts = us ++ .leftParen :: vs ∧ ∀ ws, ws <+: vs → 0 ≤ Token.depthOf ws

theorem depth_nonneg_or_hasStrayClosing (ts : List Token) :
    (∀ us, us <+: ts → 0 ≤ Token.depthOf us) ∨ HasStrayClosing ts := by
  induction ts using List.reverseRecOn with
  | nil =>
    refine Or.inl fun us hus => ?_
    rw [List.prefix_nil.1 hus]
    exact le_rfl
  | append_singleton ts t ih =>
    rcases ih with hnonneg | ⟨us, vs, rfl, hus⟩
    · rcases lt_or_ge (Token.depthOf (ts ++ [t])) 0 with hneg | hge
      · have hts := hnonneg ts List.prefix_rfl
        rw [Token.depthOf_append, Token.depthOf_singleton] at hneg
        obtain ⟨rfl, hdepth⟩ := Token.eq_rightParen_of_depth_neg (t := t) (by omega)
        exact Or.inr ⟨ts, [], rfl, hnonneg, by omega⟩
      · refine Or.inl fun us hus => ?_
        rcases List.prefix_concat_iff.1 hus with rfl | hus
        · exact hge
        · exact hnonneg us hus
    · exact Or.inr ⟨us, vs ++ [t], by rw [List.append_assoc, List.cons_append], hus⟩

theorem depth_nonpos_or_hasStrayOpening (ts : List Token) :
    (∀ vs, vs <:+ ts → Token.depthOf vs ≤ 0) ∨ HasStrayOpening ts := by
  induction ts with
  | nil =>
    refine Or.inl fun vs hvs => ?_
    rw [List.suffix_nil.1 hvs]
    exact le_rfl
  | cons t ts ih =>
    rcases ih with hnonpos | ⟨us, vs, rfl, hvs⟩
    · rcases lt_or_ge 0 (Token.depthOf (t :: ts)) with hpos | hle
      · have hts := hnonpos ts List.suffix_rfl
        rw [Token.depthOf_cons] at hpos
        obtain ⟨rfl, hdepth⟩ := Token.eq_leftParen_of_depth_pos (t := t) (by omega)
        refine Or.inr ⟨[], ts, rfl, ?_⟩
        rintro ws ⟨rest, rfl⟩
        have hrest := hnonpos rest (List.suffix_append _ _)
        rw [Token.depthOf_append] at hpos
        omega
      · refine Or.inl fun vs hvs => ?_
        rcases List.suffix_cons_iff.1 hvs with rfl | hvs
        · exact hle
        · exact hnonpos vs hvs
    · exact Or.inr ⟨t :: us, vs, rfl, hvs⟩

/-- Parentheses are not balanced if and only if one of them has no partner. -/
theorem not_balanced_iff (ts : List Token) :
    ¬ Balanced ts ↔ HasStrayClosing ts ∨ HasStrayOpening ts := by
  constructor
  · intro h
    rcases depth_nonneg_or_hasStrayClosing ts with hnonneg | hstray
    · rcases depth_nonpos_or_hasStrayOpening ts with hnonpos | hstray
      · exact absurd ⟨hnonneg, le_antisymm (hnonpos ts List.suffix_rfl)
          (hnonneg ts List.prefix_rfl)⟩ h
      · exact Or.inr hstray
    · exact Or.inl hstray
  · rintro (⟨us, vs, rfl, hus⟩ | ⟨us, vs, rfl, hvs⟩) h
    · have hnonneg := h.depth_nonneg (us ++ [.rightParen])
        ((List.prefix_append_right_inj us).2 ⟨vs, rfl⟩)
      rw [Token.depthOf_append, Token.depthOf_singleton, hus.depth_eq_zero] at hnonneg
      exact absurd hnonneg (by decide)
    · have hzero := h.depth_eq_zero
      have hus := h.depth_nonneg us (List.prefix_append _ _)
      have hvs := hvs vs List.prefix_rfl
      rw [Token.depthOf_append, Token.depthOf_cons, Token.depth] at hzero
      omega

/-! ## Applying pending operators -/

/-- An operator to blame: it was applied to too few values, or to an equation. -/
def ParseError.Blames (e : ParseError) (op : Operator) : Prop :=
  e = .unexpectedOperator op ∨ e = .equationOperand op

namespace Stacks

/-- Some of the topmost pending operators are applied. -/
inductive Applied : Stacks → Stacks → Prop
  | refl (s : Stacks) : Applied s s
  | apply {op : Operator} {operands rest : List Statement} {pending : List Pending} {s : Stacks}
      (htop : applyTop op operands = .ok rest) (hrest : Applied ⟨rest, pending⟩ s) :
      Applied ⟨operands, .operator op :: pending⟩ s

theorem Applied.pending_suffix {s s' : Stacks} (h : Applied s s') : s'.pending <:+ s.pending := by
  induction h with
  | refl s => exact List.suffix_rfl
  | apply htop hrest ih => exact ih.trans (List.suffix_cons _ _)

/-- An operator that is applied takes values and leaves one. -/
theorem ne_nil_of_applyTop {op : Operator} {operands rest : List Statement}
    (h : applyTop op operands = .ok rest) : operands ≠ [] ∧ rest ≠ [] := by
  unfold applyTop at h
  split at h
  · cases h
    exact ⟨List.cons_ne_nil _ _, List.cons_ne_nil _ _⟩
  · cases h
  · cases h

theorem Applied.operands_eq_nil_iff {s s' : Stacks} (h : Applied s s') :
    s'.operands = [] ↔ s.operands = [] := by
  induction h with
  | refl s => exact Iff.rfl
  | apply htop hrest ih =>
    obtain ⟨hoperands, hne⟩ := ne_nil_of_applyTop htop
    exact ih.trans (iff_of_false hne hoperands)

theorem applied_applyBinding {incoming : Operator} {pending : List Pending}
    {operands : List Statement} {s : Stacks} (h : applyBinding incoming pending operands = .ok s) :
    Applied ⟨operands, pending⟩ s := by
  induction pending generalizing operands with
  | nil =>
    cases h
    exact .refl _
  | cons p pending ih =>
    cases p with
    | paren =>
      cases h
      exact .refl _
    | operator op =>
      unfold applyBinding at h
      split at h
      · cases h
        exact .refl _
      · obtain ⟨rest, htop, hrest⟩ := exists_of_bind_eq_ok h
        exact .apply htop (ih hrest)

theorem applied_closeParen {pending : List Pending} {operands : List Statement} {s : Stacks}
    (h : closeParen pending operands = .ok s) :
    Applied ⟨operands, pending⟩ ⟨s.operands, .paren :: s.pending⟩ := by
  induction pending generalizing operands with
  | nil => cases h
  | cons p pending ih =>
    cases p with
    | paren =>
      cases h
      exact .refl _
    | operator op =>
      obtain ⟨rest, htop, hrest⟩ := exists_of_bind_eq_ok h
      exact .apply htop (ih hrest)

theorem applied_applyAll {pending : List Pending} {operands rest : List Statement}
    (h : applyAll pending operands = .ok rest) : Applied ⟨operands, pending⟩ ⟨rest, []⟩ := by
  induction pending generalizing operands with
  | nil =>
    cases h
    exact .refl _
  | cons p pending ih =>
    cases p with
    | paren => cases h
    | operator op =>
      obtain ⟨rest', htop, hrest⟩ := exists_of_bind_eq_ok h
      exact .apply htop (ih hrest)

/-! ## Errors of a step -/

theorem blames_applyTop {op : Operator} {operands : List Statement} {e : ParseError}
    (h : applyTop op operands = .error e) : e.Blames op := by
  unfold applyTop at h
  split at h
  · cases h
  · cases h
    exact Or.inr rfl
  · cases h
    exact Or.inl rfl

theorem error_applyBinding {incoming : Operator} {pending : List Pending}
    {operands : List Statement} {e : ParseError}
    (h : applyBinding incoming pending operands = .error e) :
    ∃ op, .operator op ∈ pending ∧ e.Blames op := by
  induction pending generalizing operands with
  | nil => cases h
  | cons p pending ih =>
    cases p with
    | paren => cases h
    | operator op =>
      unfold applyBinding at h
      split at h
      · cases h
      · rcases error_or_exists_of_bind h with htop | ⟨rest, -, hrest⟩
        · exact ⟨op, List.mem_cons_self, blames_applyTop htop⟩
        · obtain ⟨op', hop', he⟩ := ih hrest
          exact ⟨op', List.mem_cons_of_mem _ hop', he⟩

theorem error_closeParen {pending : List Pending} {operands : List Statement} {e : ParseError}
    (h : closeParen pending operands = .error e) :
    e = .unbalancedParentheses ∧ depth ⟨operands, pending⟩ = 0 ∨
      ∃ op, .operator op ∈ pending ∧ e.Blames op := by
  induction pending generalizing operands with
  | nil =>
    cases h
    exact Or.inl ⟨rfl, rfl⟩
  | cons p pending ih =>
    cases p with
    | paren => cases h
    | operator op =>
      rcases error_or_exists_of_bind h with htop | ⟨rest, -, hrest⟩
      · exact Or.inr ⟨op, List.mem_cons_self, blames_applyTop htop⟩
      · rcases ih hrest with ⟨he, hdepth⟩ | ⟨op', hop', he⟩
        · exact Or.inl ⟨he, (depth_operator operands op pending).trans hdepth⟩
        · exact Or.inr ⟨op', List.mem_cons_of_mem _ hop', he⟩

theorem error_applyAll {pending : List Pending} {operands : List Statement} {e : ParseError}
    (h : applyAll pending operands = .error e) :
    e = .unbalancedParentheses ∧ 0 < depth ⟨operands, pending⟩ ∨
      ∃ op, .operator op ∈ pending ∧ e.Blames op := by
  induction pending generalizing operands with
  | nil => cases h
  | cons p pending ih =>
    cases p with
    | paren =>
      cases h
      exact Or.inl ⟨rfl, by rw [depth_paren]; exact Nat.succ_pos _⟩
    | operator op =>
      rcases error_or_exists_of_bind h with htop | ⟨rest, -, hrest⟩
      · exact Or.inr ⟨op, List.mem_cons_self, blames_applyTop htop⟩
      · rcases ih hrest with ⟨he, hdepth⟩ | ⟨op', hop', he⟩
        · exact Or.inl ⟨he, hdepth.trans_eq (depth_operator operands op pending).symm⟩
        · exact Or.inr ⟨op', List.mem_cons_of_mem _ hop', he⟩

/-- A token is refused if it closes a parenthesis and none is open, or if it makes an operator
be applied that is to blame. -/
theorem error_step {s : Stacks} {t : Token} {e : ParseError} (h : s.step t = .error e) :
    e = .unbalancedParentheses ∧ t = .rightParen ∧ s.depth = 0 ∨
      ∃ op, .operator op ∈ s.pending ∧ e.Blames op := by
  cases t with
  | operand p => cases h
  | leftParen => cases h
  | operator op =>
    rcases error_or_exists_of_bind h with hbinding | ⟨s', -, hs'⟩
    · exact Or.inr (error_applyBinding hbinding)
    · cases hs'
  | rightParen =>
    rcases error_closeParen h with ⟨he, hdepth⟩ | hblame
    · exact Or.inl ⟨he, rfl, hdepth⟩
    · exact Or.inr hblame

theorem error_finish {s : Stacks} {e : ParseError} (h : s.finish = .error e) :
    (e = .empty ∧ s.depth = 0 ∧ s.surplus = 0 ∧ s.operands = []) ∨
      (e = .missingOperator ∧ s.depth = 0 ∧ 1 < s.surplus) ∨
      (e = .unbalancedParentheses ∧ 0 < s.depth) ∨
      ∃ op, .operator op ∈ s.pending ∧ e.Blames op := by
  rcases error_or_exists_of_bind h with hall | ⟨operands, hall, hfinish⟩
  · exact Or.inr (Or.inr (error_applyAll hall))
  · obtain ⟨hsurplus, hdepth⟩ := counts_applyAll hall
    split at hfinish
    · cases hfinish
      exact Or.inl ⟨rfl, hdepth, hsurplus.symm, (applied_applyAll hall).operands_eq_nil_iff.1 rfl⟩
    · cases hfinish
    · next hnil hsingleton =>
      cases hfinish
      refine Or.inr (Or.inl ⟨rfl, hdepth, ?_⟩)
      have hlength : 1 < operands.length := by
        match operands with
        | [] => exact absurd rfl hnil
        | [_] => exact absurd rfl (hsingleton _)
        | _ :: _ :: _ => exact Nat.succ_lt_succ (Nat.succ_pos _)
      change ((operands.length : ℕ) : ℤ) = s.surplus at hsurplus
      omega

end Stacks

/-! ## What the stacks hold after tokens -/

namespace Token

/-- Is this an operator? -/
def isOperator : Token → Bool
  | operator _ => true
  | _ => false

theorem surplus_eq (t : Token) :
    t.surplus = (List.countP isOperand [t] : ℤ) - List.countP isOperator [t] := by
  cases t <;> rfl

end Token

namespace Stacks

/-- The stacks after tokens count these. -/
structure Counts (ts : List Token) (s : Stacks) : Prop where
  surplus_eq : s.surplus = (ts.countP Token.isOperand : ℤ) - ts.countP Token.isOperator
  depth_eq : (s.depth : ℤ) = Token.depthOf ts
  operands_eq_nil_iff : s.operands = [] ↔ ts.countP Token.isOperand = 0
  mem_of_pending : ∀ op, .operator op ∈ s.pending → .operator op ∈ ts

theorem counts_start : Counts [] start := ⟨rfl, rfl, iff_of_true rfl rfl, fun _ h => nomatch h⟩

/-- A step keeps operands where there are some, and adds no pending operator but its own. -/
theorem stacks_step {s s' : Stacks} {t : Token} (h : s.step t = .ok s') :
    (s'.operands = [] ↔ s.operands = [] ∧ t.isOperand = false) ∧
      ∀ op, .operator op ∈ s'.pending → .operator op ∈ s.pending ∨ t = .operator op := by
  cases t with
  | operand p =>
    cases h
    exact ⟨iff_of_false (List.cons_ne_nil _ _) (by simp [Token.isOperand]), fun op => Or.inl⟩
  | leftParen =>
    cases h
    refine ⟨(and_iff_left rfl).symm, fun op hop => Or.inl ?_⟩
    simpa using hop
  | operator op =>
    obtain ⟨s₁, hbinding, hs₁⟩ := exists_of_bind_eq_ok h
    cases hs₁
    have happlied := applied_applyBinding hbinding
    refine ⟨happlied.operands_eq_nil_iff.trans (and_iff_left rfl).symm, fun op' hop' => ?_⟩
    rcases List.mem_cons.1 hop' with heq | hop'
    · cases heq
      exact Or.inr rfl
    · exact Or.inl (happlied.pending_suffix.subset hop')
  | rightParen =>
    have happlied := applied_closeParen h
    exact ⟨happlied.operands_eq_nil_iff.trans (and_iff_left rfl).symm, fun op hop =>
      Or.inl (happlied.pending_suffix.subset (List.mem_cons_of_mem _ hop))⟩

theorem Counts.step {ts : List Token} {s s' : Stacks} {t : Token} (h : Counts ts s)
    (hstep : s.step t = .ok s') : Counts (ts ++ [t]) s' := by
  obtain ⟨hsurplus, hdepth⟩ := counts_step hstep
  obtain ⟨hnil, hpending⟩ := stacks_step hstep
  refine ⟨?_, ?_, ?_, fun op hop => ?_⟩
  · rw [hsurplus, h.surplus_eq, t.surplus_eq, List.countP_append, List.countP_append]
    push_cast
    ring
  · rw [hdepth, h.depth_eq, Token.depthOf_append, Token.depthOf_singleton]
  · rw [hnil, h.operands_eq_nil_iff, List.countP_append, Nat.add_eq_zero_iff]
    simp
  · rw [List.mem_append, List.mem_singleton]
    exact (hpending op hop).imp (h.mem_of_pending op) Eq.symm

theorem counts_foldlM {ts : List Token} {s : Stacks} (h : ts.foldlM step start = .ok s) :
    Counts ts s := by
  induction ts using List.reverseRecOn generalizing s with
  | nil =>
    cases h
    exact counts_start
  | append_singleton ts t ih =>
    rw [List.foldlM_append] at h
    obtain ⟨s₁, hs₁, h⟩ := exists_of_bind_eq_ok h
    obtain ⟨s₂, hstep, hs₂⟩ := exists_of_bind_eq_ok h
    cases hs₂
    exact (ih hs₁).step hstep

/-- Behind tokens that are taken in, no more parentheses are closed than opened. -/
theorem depth_nonneg_of_foldlM {ts : List Token} {s : Stacks}
    (h : ts.foldlM step start = .ok s) : ∀ us, us <+: ts → 0 ≤ Token.depthOf us := by
  rintro us ⟨vs, rfl⟩
  rw [List.foldlM_append] at h
  obtain ⟨s₁, hs₁, -⟩ := exists_of_bind_eq_ok h
  rw [← (counts_foldlM hs₁).depth_eq]
  exact Int.natCast_nonneg _

theorem balanced_iff_of_foldlM {ts : List Token} {s : Stacks}
    (h : ts.foldlM step start = .ok s) : Balanced ts ↔ s.depth = 0 := by
  rw [← Int.natCast_eq_zero, (counts_foldlM h).depth_eq]
  exact ⟨Balanced.depth_eq_zero, fun hdepth => ⟨depth_nonneg_of_foldlM h, hdepth⟩⟩

end Stacks

/-! ## The diagnosis -/

namespace Statement

/-- What comes of reading tokens, and what that tells about them. -/
inductive Diagnosis (ts : List Token) : Except ParseError Statement → Prop
  | statement {s : Statement} (hbalanced : Balanced ts)
      (hcount : ts.countP Token.isOperand = ts.countP Token.isOperator + 1) : Diagnosis ts (.ok s)
  | missingOperator (hbalanced : Balanced ts)
      (hcount : ts.countP Token.isOperator + 1 < ts.countP Token.isOperand) :
      Diagnosis ts (.error .missingOperator)
  | empty (hbalanced : Balanced ts) (hoperand : ts.countP Token.isOperand = 0)
      (hoperator : ts.countP Token.isOperator = 0) : Diagnosis ts (.error .empty)
  | unbalanced (h : ¬ Balanced ts) : Diagnosis ts (.error .unbalancedParentheses)
  | blamed {op : Operator} {e : ParseError} (hop : .operator op ∈ ts) (he : e.Blames op) :
      Diagnosis ts (.error e)

namespace Diagnosis

variable {ts : List Token} {result : Except ParseError Statement}

theorem of_ok {s : Statement} (h : Diagnosis ts (.ok s)) :
    Balanced ts ∧ ts.countP Token.isOperand = ts.countP Token.isOperator + 1 := by
  cases h with
  | statement hbalanced hcount => exact ⟨hbalanced, hcount⟩

theorem of_missingOperator (h : Diagnosis ts (.error .missingOperator)) :
    Balanced ts ∧ ts.countP Token.isOperator + 1 < ts.countP Token.isOperand := by
  cases h with
  | missingOperator hbalanced hcount => exact ⟨hbalanced, hcount⟩
  | blamed hop he => rcases he with he | he <;> cases he

theorem of_unbalanced (h : Diagnosis ts (.error .unbalancedParentheses)) : ¬ Balanced ts := by
  cases h with
  | unbalanced h => exact h
  | blamed hop he => rcases he with he | he <;> cases he

theorem of_empty (h : Diagnosis ts (.error .empty)) :
    Balanced ts ∧ ts.countP Token.isOperand = 0 ∧ ts.countP Token.isOperator = 0 := by
  cases h with
  | empty hbalanced hoperand hoperator => exact ⟨hbalanced, hoperand, hoperator⟩
  | blamed hop he => rcases he with he | he <;> cases he

/-- Where there are only balanced parentheses, nothing is to blame. -/
theorem eq_empty (h : Diagnosis ts result) (hbalanced : Balanced ts)
    (hoperand : ts.countP Token.isOperand = 0) (hoperator : ts.countP Token.isOperator = 0) :
    result = .error .empty := by
  cases h with
  | statement _ hcount => exact absurd hcount (by omega)
  | missingOperator _ hcount => exact absurd hcount (by omega)
  | empty => rfl
  | unbalanced h => exact absurd hbalanced h
  | blamed hop => exact absurd rfl (List.countP_eq_zero.1 hoperator _ hop)

theorem of_not_balanced (h : Diagnosis ts result) (hbalanced : ¬ Balanced ts) :
    result = .error .unbalancedParentheses ∨
      ∃ op, result = .error (.unexpectedOperator op) ∨ result = .error (.equationOperand op) := by
  cases h with
  | statement h => exact absurd h hbalanced
  | missingOperator h => exact absurd h hbalanced
  | empty h => exact absurd h hbalanced
  | unbalanced => exact Or.inl rfl
  | @blamed op e _ he =>
    exact Or.inr ⟨op, he.imp (congrArg Except.error) (congrArg Except.error)⟩

end Diagnosis

theorem diagnosis_ofTokens? (ts : List Token) : Diagnosis ts (ofTokens? ts none) := by
  cases hrun : ts.foldlM Stacks.step Stacks.start with
  | error e =>
    have hresult : ofTokens? ts none = .error e := by
      rw [ofTokens?, hrun]
      rfl
    rw [hresult]
    obtain ⟨us, t, vs, s, rfl, hus, hstep⟩ := exists_of_foldlM_eq_error hrun
    have hcounts := Stacks.counts_foldlM hus
    rcases Stacks.error_step hstep with ⟨rfl, rfl, hdepth⟩ | ⟨op, hop, he⟩
    · have hus := (Stacks.balanced_iff_of_foldlM hus).2 hdepth
      exact .unbalanced ((not_balanced_iff _).2 (Or.inl ⟨us, vs, rfl, hus⟩))
    · exact .blamed (List.mem_append_left _ (hcounts.mem_of_pending op hop)) he
  | ok s =>
    have hresult : ofTokens? ts none = s.finish := by
      rw [ofTokens?, hrun]
      rfl
    have hcounts := Stacks.counts_foldlM hrun
    have hsurplus := hcounts.surplus_eq
    have hbalanced := Stacks.balanced_iff_of_foldlM hrun
    rw [hresult]
    cases hfinish : s.finish with
    | ok statement =>
      obtain ⟨hone, hdepth⟩ := Stacks.counts_finish hfinish
      exact .statement (hbalanced.2 hdepth) (by omega)
    | error e =>
      rcases Stacks.error_finish hfinish with ⟨rfl, hdepth, hzero, hnil⟩ | ⟨rfl, hdepth, hone⟩ |
        ⟨rfl, hdepth⟩ | ⟨op, hop, he⟩
      · have hoperand := hcounts.operands_eq_nil_iff.1 hnil
        exact .empty (hbalanced.2 hdepth) hoperand (by omega)
      · exact .missingOperator (hbalanced.2 hdepth) (by omega)
      · exact .unbalanced (mt hbalanced.1 hdepth.ne')
      · exact .blamed (hcounts.mem_of_pending op hop) he

/-- What comes of a text without invalid characters tells about its parentheses and about
the numbers of its operands and operators. -/
theorem parse_classifies {text : String} (h : (Lexing.ofString text).invalid = none) :
    let ts := (Lexing.ofString text).tokens
    let operands := ts.countP Token.isOperand
    let operators := ts.countP Token.isOperator
    (∀ s, parse text = .ok s → Balanced ts ∧ operands = operators + 1) ∧
    (parse text = .error .missingOperator → Balanced ts ∧ operators + 1 < operands) ∧
    (parse text = .error .empty ↔ Balanced ts ∧ operands = 0 ∧ operators = 0) ∧
    (parse text = .error .unbalancedParentheses → ¬ Balanced ts) ∧
    (¬ Balanced ts → parse text = .error .unbalancedParentheses ∨
      ∃ op, parse text = .error (.unexpectedOperator op) ∨
        parse text = .error (.equationOperand op)) ∧
    (¬ Balanced ts ↔ HasStrayClosing ts ∨ HasStrayOpening ts) := by
  intro ts operands operators
  have hparse : parse text = ofTokens? ts none := by rw [parse, h]
  have hdiagnosis := diagnosis_ofTokens? ts
  rw [← hparse] at hdiagnosis
  refine ⟨fun s hs => ?_, fun herror => ?_, ⟨fun herror => ?_, ?_⟩, fun herror => ?_,
    hdiagnosis.of_not_balanced, not_balanced_iff ts⟩
  · exact (hs ▸ hdiagnosis).of_ok
  · exact (herror ▸ hdiagnosis).of_missingOperator
  · exact (herror ▸ hdiagnosis).of_empty
  · rintro ⟨hbalanced, hoperand, hoperator⟩
    exact hdiagnosis.eq_empty hbalanced hoperand hoperator
  · exact (herror ▸ hdiagnosis).of_unbalanced

/-- In `x y) + (z` as many parentheses are opened as closed, but not in this order. -/
theorem parse_classifies_crossed :
    (Lexing.ofString "x y) + (z").invalid = none ∧
      parse "x y) + (z" = .error .unbalancedParentheses ∧
      ¬ Balanced (Lexing.ofString "x y) + (z").tokens := by
  have h : (Lexing.ofString "x y) + (z").invalid = none := by decide +kernel
  have herror : parse "x y) + (z" = .error .unbalancedParentheses := by decide +kernel
  obtain ⟨-, -, -, hunbalanced, -⟩ := parse_classifies h
  exact ⟨h, herror, hunbalanced herror⟩

end Statement
end Meadow
