import Mathlib
import Meadow.Proofs.Poly.Value
import Meadow.Proofs.Token.Lexeme

set_option autoImplicit false

/-!
# The value of a text

A text is read by the usual conventions: `**` with a natural number binds tightest, then a
minus sign in front, then `*` and `/`, then `+` and `-`, the operators from left to right;
division by zero gives zero.  The grammar says which value the tokens have
(`Evaluates`), and that they have no other one (`Evaluates.unique`) is seen by evaluating
them from left to right.
-/

namespace Meadow

variable {K : Type*} [Field K]

/-! ## The grammar -/

/-- Tokens have a value at a level of precedence: sums at level 0, products at 1, signs at
2, powers at 3, operands and parentheses at 4.  The `**` of a power is two tokens. -/
inductive Evaluates (v : String → K) : ℕ → List Token → K → Prop
  | operand (p : Poly) : Evaluates v 4 [.operand p] (p.value v)
  | parens {ts : List Token} {x : K} (h : Evaluates v 0 ts x) :
      Evaluates v 4 (.leftParen :: (ts ++ [.rightParen])) x
  | power {ts : List Token} {x : K} (h : Evaluates v 4 ts x) (n : ℕ) :
      Evaluates v 3 (ts ++ [.operator .times, .operator .times, .operand (.constant n)]) (x ^ n)
  | neg {ts : List Token} {x : K} (h : Evaluates v 2 ts x) :
      Evaluates v 2 (.operator .minus :: ts) (-x)
  | mul {ts us : List Token} {x y : K} (hx : Evaluates v 1 ts x) (hy : Evaluates v 2 us y) :
      Evaluates v 1 (ts ++ .operator .times :: us) (x * y)
  | div {ts us : List Token} {x y : K} (hx : Evaluates v 1 ts x) (hy : Evaluates v 2 us y) :
      Evaluates v 1 (ts ++ .operator .divide :: us) (x / y)
  | add {ts us : List Token} {x y : K} (hx : Evaluates v 0 ts x) (hy : Evaluates v 1 us y) :
      Evaluates v 0 (ts ++ .operator .plus :: us) (x + y)
  | sub {ts us : List Token} {x y : K} (hx : Evaluates v 0 ts x) (hy : Evaluates v 1 us y) :
      Evaluates v 0 (ts ++ .operator .minus :: us) (x - y)
  | lift {k : ℕ} {ts : List Token} {x : K} (h : Evaluates v (k + 1) ts x) : Evaluates v k ts x

/-- A text has the value that its tokens have. -/
def TextEvaluates (v : String → K) (text : String) (x : K) : Prop :=
  (Lexing.ofString text).invalid = none ∧ Evaluates v 0 (Lexing.ofString text).tokens x

namespace Evaluates

variable {v : String → K}

theorem of_le {k l : ℕ} {ts : List Token} {x : K} (hkl : l ≤ k) (h : Evaluates v k ts x) :
    Evaluates v l ts x := by
  induction k, hkl using Nat.le_induction with
  | base => exact h
  | succ k _ ih => exact ih h.lift

/-- What has a value starts with an operand, a parenthesis or a sign. -/
theorem exists_cons {k : ℕ} {ts : List Token} {x : K} (h : Evaluates v k ts x) :
    ∃ t us, ts = t :: us ∧ t ≠ .operator .times := by
  induction h with
  | operand p => exact ⟨_, _, rfl, by simp⟩
  | parens _ _ => exact ⟨_, _, rfl, by simp⟩
  | neg _ _ => exact ⟨_, _, rfl, by simp⟩
  | power _ _ ih =>
    obtain ⟨t, us, rfl, ht⟩ := ih
    exact ⟨t, _, rfl, ht⟩
  | mul _ _ ih _ =>
    obtain ⟨t, us, rfl, ht⟩ := ih
    exact ⟨t, _, rfl, ht⟩
  | div _ _ ih _ =>
    obtain ⟨t, us, rfl, ht⟩ := ih
    exact ⟨t, _, rfl, ht⟩
  | add _ _ ih _ =>
    obtain ⟨t, us, rfl, ht⟩ := ih
    exact ⟨t, _, rfl, ht⟩
  | sub _ _ ih _ =>
    obtain ⟨t, us, rfl, ht⟩ := ih
    exact ⟨t, _, rfl, ht⟩
  | lift _ ih => exact ih

end Evaluates

/-! ## Evaluation from left to right -/

/-- Something that waits for the value behind it: an open parenthesis, which binds nothing,
a sign, or an operator with its left operand. -/
structure Waiting (K : Type*) where
  strength : ℕ
  apply : K → K

/-- What the tokens so far end in: nothing that has a value yet, a value, or a value with one
or two stars behind it. -/
inductive Progress (K : Type*) where
  | start
  | value (x : K)
  | times (x : K)
  | power (x : K)

namespace Waiting

/-- Let everything on top that binds as tightly as `level` have the value. -/
def settle (level : ℕ) (x : K) : List (Waiting K) → K × List (Waiting K)
  | [] => (x, [])
  | w :: ws => if level ≤ w.strength then settle level (w.apply x) ws else (x, w :: ws)

def paren : Waiting K := ⟨0, id⟩

def sign : Waiting K := ⟨3, fun y => -y⟩

/-- An operator with its left operand; an equation has no value. -/
def ofOperator? (x : K) : Operator → Option (Waiting K)
  | .equals => none
  | .plus => some ⟨1, fun y => x + y⟩
  | .minus => some ⟨1, fun y => x - y⟩
  | .times => some ⟨2, fun y => x * y⟩
  | .divide => some ⟨2, fun y => x / y⟩

/-- An operator takes what binds as tightly in front of it as its left operand. -/
def push (op : Operator) (x : K) (ws : List (Waiting K)) : Option (List (Waiting K)) :=
  (ofOperator? (settle op.precedence x ws).1 op).map fun w => w :: (settle op.precedence x ws).2

/-- The token that starts an operand. -/
def begin? (v : String → K) (ws : List (Waiting K)) :
    Token → Option (Progress K × List (Waiting K))
  | .operand p => some (.value (p.value v), ws)
  | .leftParen => some (.start, paren :: ws)
  | .operator .minus => some (.start, sign :: ws)
  | _ => none

/-- Evaluate one more token. -/
def step (v : String → K) : Progress K × List (Waiting K) → Token →
    Option (Progress K × List (Waiting K))
  | (.start, ws), t => begin? v ws t
  | (.value x, ws), .operator .times => some (.times x, ws)
  | (.value x, ws), .operator op => (push op x ws).map fun us => (.start, us)
  | (.value x, ws), .rightParen => some (.value (settle 1 x ws).1, (settle 1 x ws).2.tail)
  | (.value _, _), _ => none
  | (.times x, ws), .operator .times => some (.power x, ws)
  | (.times x, ws), t => (push .times x ws).bind fun us => begin? v us t
  | (.power x, ws), .operand p => some (.value (x ^ (p.coeff .one).num.toNat), ws)
  | (.power _, _), _ => none

/-- The value at the end. -/
def finish? : Progress K × List (Waiting K) → Option K
  | (.value x, ws) => some (settle 1 x ws).1
  | _ => none

/-- Evaluate tokens to the end. -/
def run (v : String → K) (s : Progress K × List (Waiting K)) (ts : List Token) : Option K :=
  (ts.foldlM (step v) s).bind finish?

variable {v : String → K}

theorem run_cons (s : Progress K × List (Waiting K)) (t : Token) (ts : List Token) :
    run v s (t :: ts) = (step v s t).bind fun s' => run v s' ts := by
  rw [run, List.foldlM_cons]
  cases step v s t <;> rfl

omit [Field K] in
theorem settle_cons {level : ℕ} {w : Waiting K} (h : level ≤ w.strength) (x : K)
    (ws : List (Waiting K)) : settle level x (w :: ws) = settle level (w.apply x) ws := by
  rw [settle, if_pos h]

omit [Field K] in
theorem settle_of_lt {level : ℕ} {ws : List (Waiting K)}
    (h : ∀ w ∈ ws.head?, w.strength < level) (x : K) : settle level x ws = (x, ws) := by
  cases ws with
  | nil => rfl
  | cons w ws => rw [settle, if_neg (Nat.not_le.2 (h w rfl))]

theorem push_of_lt {op : Operator} {ws : List (Waiting K)}
    (h : ∀ w ∈ ws.head?, w.strength < op.precedence) (x : K) :
    push op x ws = (ofOperator? x op).map fun w => w :: ws := by
  rw [push, settle_of_lt h]

/-- An operator in front of an operand is evaluated at once; a star waits for the next token
only because that may be a star. -/
theorem run_operator (op : Operator) (x : K) (ws : List (Waiting K)) {t : Token}
    (ht : t ≠ .operator .times) (ts : List Token) :
    run v (.value x, ws) (.operator op :: t :: ts)
      = (push op x ws).bind fun us => run v (.start, us) (t :: ts) := by
  have hstart (us : List (Waiting K)) :
      run v (.start, us) (t :: ts) = (begin? v us t).bind fun s => run v s ts := run_cons _ _ _
  rw [run_cons]
  by_cases hop : op = .times
  · subst hop
    have hstep : step v (.times x, ws) t = (push .times x ws).bind fun us => begin? v us t := by
      cases t with
      | operator op =>
        cases op with
        | times => exact absurd rfl ht
        | _ => rfl
      | _ => rfl
    rw [step, Option.bind_some, run_cons, hstep, Option.bind_assoc]
    simp only [hstart]
  · have hstep : step v (.value x, ws) (.operator op)
        = (push op x ws).map fun us => (.start, us) := by
      cases op with
      | times => exact absurd rfl hop
      | _ => rfl
    rw [hstep, Option.bind_map]
    rfl

/-! ## Where a part ends -/

/-- The rest lets whatever binds as tightly as `level` have the value before it. -/
def Stops (v : String → K) (level : ℕ) (rest : List Token) : Prop :=
  ∀ (w : Waiting K) (ws : List (Waiting K)) (x : K), level ≤ w.strength →
    run v (.value x, w :: ws) rest = run v (.value (w.apply x), ws) rest

theorem Stops.mono {k l : ℕ} {rest : List Token} (h : Stops v k rest) (hkl : k ≤ l) :
    Stops v l rest :=
  fun w ws x hw => h w ws x (hkl.trans hw)

theorem stops_nil : Stops v 1 [] := fun w ws x hw => by
  change some (settle 1 x (w :: ws)).1 = some (settle 1 (w.apply x) ws).1
  rw [settle_cons hw]

theorem stops_rightParen (rest : List Token) : Stops v 1 (.rightParen :: rest) :=
  fun w ws x hw => by
    rw [run_cons, run_cons, step, step, settle_cons hw]

theorem stops_operator (op : Operator) {t : Token} (ht : t ≠ .operator .times)
    (ts : List Token) : Stops v op.precedence (.operator op :: t :: ts) := fun w ws x hw => by
  rw [run_operator op x (w :: ws) ht, run_operator op (w.apply x) ws ht, push, push,
    settle_cons hw]

end Waiting

/-! ## There is one value -/

namespace Evaluates

open Waiting

variable {v : String → K}

theorem stops_operator {us : List Token} {y : K} {l : ℕ} (hy : Evaluates v l us y)
    (op : Operator) (rest : List Token) :
    Stops v op.precedence (.operator op :: (us ++ rest)) := by
  obtain ⟨t, us, rfl, ht⟩ := hy.exists_cons
  exact Waiting.stops_operator op ht _

/-- An operator waits with its left operand while the right one is evaluated, and then has
the value before anything that does not bind more tightly. -/
theorem run_binary {ts us rest : List Token} {x y : K} {l : ℕ} {w : Waiting K}
    {ws : List (Waiting K)} (hy : Evaluates v l us y) (op : Operator)
    (hop : ofOperator? x op = some w) (hstrength : op.precedence ≤ w.strength)
    (hws : ∀ w ∈ ws.head?, w.strength < op.precedence) (hrest : Stops v op.precedence rest)
    (hleft : run v (.start, ws) (ts ++ .operator op :: (us ++ rest))
      = run v (.value x, ws) (.operator op :: (us ++ rest)))
    (hright : run v (.start, w :: ws) (us ++ rest) = run v (.value y, w :: ws) rest) :
    run v (.start, ws) (ts ++ .operator op :: us ++ rest)
      = run v (.value (w.apply y), ws) rest := by
  obtain ⟨t, us, rfl, ht⟩ := hy.exists_cons
  rw [List.append_assoc, List.cons_append, hleft, List.cons_append, run_operator op x ws ht,
    push_of_lt hws, hop, Option.map_some, Option.bind_some, ← List.cons_append, hright]
  exact hrest w ws y hstrength

/-- Tokens with a value are evaluated to it: what waits in front binds less tightly than
their operators, and what follows does not bind more tightly. -/
theorem run_append {k : ℕ} {ts : List Token} {x : K} (h : Evaluates v k ts x)
    {ws : List (Waiting K)} {rest : List Token}
    (hws : k < 2 → ∀ w ∈ ws.head?, w.strength < k + 1)
    (hrest : k < 3 → Stops v (k + 1) rest) :
    run v (.start, ws) (ts ++ rest) = run v (.value x, ws) rest := by
  induction h generalizing ws rest with
  | operand p => exact run_cons _ _ _
  | @parens ts x h ih =>
    have hparen : ∀ w ∈ (paren :: ws).head?, w.strength < 1 := by
      rintro w ⟨⟩
      exact Nat.one_pos
    have hinner := ih (fun _ => hparen) (fun _ => stops_rightParen rest)
    rw [List.cons_append, List.append_assoc, run_cons]
    refine hinner.trans ?_
    rw [run_cons, step, settle_of_lt hparen]
    rfl
  | @power ts x h n ih =>
    rw [List.append_assoc, ih (by omega) (by omega)]
    simp only [List.cons_append, List.nil_append, run_cons, step, Option.bind_some]
    rw [Poly.coeff_constant, if_pos rfl, Rat.num_natCast, Int.toNat_natCast]
  | neg h ih =>
    rw [List.cons_append, run_cons]
    refine (ih (by omega) hrest).trans ?_
    exact hrest (by omega) sign ws _ le_rfl
  | mul hx hy ihx ihy =>
    have hstop := hrest (by omega)
    exact hy.run_binary .times rfl le_rfl (hws (by omega)) hstop
      (ihx hws fun _ => hy.stops_operator .times rest)
      (ihy (by omega) fun _ => hstop.mono (by omega))
  | div hx hy ihx ihy =>
    have hstop := hrest (by omega)
    exact hy.run_binary .divide rfl le_rfl (hws (by omega)) hstop
      (ihx hws fun _ => hy.stops_operator .divide rest)
      (ihy (by omega) fun _ => hstop.mono (by omega))
  | add hx hy ihx ihy =>
    have hstop := hrest (by omega)
    exact hy.run_binary .plus rfl le_rfl (hws (by omega)) hstop
      (ihx hws fun _ => hy.stops_operator .plus rest)
      (ihy (fun _ => by rintro w ⟨⟩; exact Nat.one_lt_two) fun _ => hstop.mono (by omega))
  | sub hx hy ihx ihy =>
    have hstop := hrest (by omega)
    exact hy.run_binary .minus rfl le_rfl (hws (by omega)) hstop
      (ihx hws fun _ => hy.stops_operator .minus rest)
      (ihy (fun _ => by rintro w ⟨⟩; exact Nat.one_lt_two) fun _ => hstop.mono (by omega))
  | @lift k ts x h ih =>
    refine ih (fun hk w hw => ?_) fun hk => (hrest (by omega)).mono (by omega)
    exact (hws (by omega) w hw).trans (Nat.lt_succ_self _)

/-- Tokens have at most one value. -/
theorem unique {ts : List Token} {x y : K} (hx : Evaluates v 0 ts x)
    (hy : Evaluates v 0 ts y) : x = y := by
  have hrun {z : K} (hz : Evaluates v 0 ts z) : run v (.start, []) ts = some z := by
    have happend : run v (.start, []) (ts ++ []) = run v (.value z, []) [] :=
      hz.run_append (fun _ _ hw => by cases hw) fun _ => stops_nil
    rwa [List.append_nil] at happend
  exact Option.some_injective K ((hrun hx).symm.trans (hrun hy))

end Evaluates

theorem TextEvaluates.unique {v : String → K} {text : String} {x y : K}
    (hx : TextEvaluates v text x) (hy : TextEvaluates v text y) : x = y :=
  hx.2.unique hy.2

end Meadow
