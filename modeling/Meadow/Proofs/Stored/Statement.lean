import Mathlib
import Meadow.Proofs.Statement.WellFormed
import Meadow.Proofs.Stored.Eval
import Meadow.Proofs.Stored.Text
import Meadow.Proofs.Token.Lexing
import Meadow.Proofs.Verdict
import Meadow.Stored.Statement

set_option autoImplicit false

/-!
# Reading and proving over stored forms

Operators are applied to stored forms while the text is read.  Unless an exponent overflows, this
makes no difference to reading all tokens first and applying operators to forms then
(`Stored.Statement.follows_parse`), and a line of input gets the same report
(`Stored.ensures_prove`).  What is reported proven holds (`Stored.proven_sound`), and everything
that is read or computed is well formed (`Stored.Form.wellFormed_operations`).
-/

namespace Meadow

/-! ## Texts cut into lexemes -/

theorem Lexing.ofChars_of_blank {cs : List Char} (h : cs.dropWhile Unicode.isBlank = [])
    (position : ℕ) : ofChars position cs = ⟨[], none⟩ := by
  unfold ofChars
  split
  · rfl
  · next hdrop => cases h.symm.trans hdrop

theorem Lexing.ofChars_of_cons {cs : List Char} {c : Char} {rest : List Char}
    (h : cs.dropWhile Unicode.isBlank = c :: rest) (position : ℕ) :
    let start := position + (cs.takeWhile Unicode.isBlank).length
    ofChars position cs = match Lexeme.read? c rest with
      | none => ⟨[], some ⟨c, start⟩⟩
      | some l =>
        let others := ofChars (start + l.text.length) ((c :: rest).drop l.text.length)
        ⟨l :: others.lexemes, others.invalid⟩ := by
  intro start
  conv_lhs => unfold ofChars
  split
  · next hdrop => cases h.symm.trans hdrop
  · next hdrop =>
    obtain ⟨rfl, rfl⟩ := List.cons.inj (h.symm.trans hdrop)
    dsimp only
    split
    · next hnone => rw [hnone]
    · next l hl => rw [hl]

/-- Take in the lexemes of a text. -/
def Stacks.takeIn (s : Stacks) (l : Lexing) : Except ParseError Stacks := do
  let s ← l.tokens.foldlM step s
  match l.invalid with
  | some c => .error (.invalidCharacter c)
  | none => .ok s

theorem Stacks.takeIn_cons (s : Stacks) (l : Lexeme) (rest : Lexing) :
    s.takeIn ⟨l :: rest.lexemes, rest.invalid⟩ = s.step l.token >>= (·.takeIn rest) := by
  rw [takeIn, Lexing.tokens, List.map_cons, List.foldlM_cons, bind_assoc]
  rfl

theorem Statement.ofTokens?_eq (l : Lexing) :
    ofTokens? l.tokens l.invalid = Stacks.start.takeIn l >>= Stacks.finish := by
  rw [ofTokens?, Stacks.takeIn, bind_assoc]
  cases l.invalid <;> rfl

namespace Stored

open Machine (Ensures Returns Overflows)

/-! ## Operands -/

/-- A monomial whose exponents fit into words is represented by these words. -/
theorem Monomial.represents_store {m : Meadow.Monomial}
    (h : ∀ w ∈ m.powers, w.2 < UInt32.size) : (store m).Represents m := by
  change ((m.powers.map fun w => (w.1, UInt32.ofNat w.2)).map Power.number) = m.powers
  rw [List.map_map]
  refine (List.map_congr_left fun w hw => ?_).trans (List.map_id _)
  exact Prod.ext rfl (UInt32.toNat_ofNat_of_lt' (h w hw))

theorem Poly.represents_store {p : Meadow.Poly}
    (h : ∀ t ∈ p.terms, ∀ w ∈ t.1.powers, w.2 < UInt32.size) : (store p).Represents p := by
  have hstore (t : Meadow.Monomial × ℚ) (ht : t ∈ p.terms) :
      (Monomial.store t.1).Represents t.1 := Monomial.represents_store (h t ht)
  have hsorted : Entries.Sorted (descending Monomial.lexCmp)
      (p.terms.map fun t => (Monomial.store t.1, t.2)) :=
    List.pairwise_map.2 (p.coeffs.sorted.imp_of_mem fun {t u} ht hu hlt =>
      ((hstore u hu).lexCmp (hstore t ht)).trans hlt)
  have hnonzero : Entries.Nonzero 0 (p.terms.map fun t => (Monomial.store t.1, t.2)) :=
    List.forall_mem_map.2 p.coeffs.nonzero
  rw [Represents, store, terms_ofTerms hsorted hnonzero, List.forall₂_map_left_iff,
    List.forall₂_same]
  exact fun t ht => ⟨hstore t ht, rfl⟩

theorem Poly.represents_store_monomial {m : Meadow.Monomial}
    (h : ∀ w ∈ m.powers, w.2 < UInt32.size) (c : ℚ) :
    (store (.monomial m c)).Represents (.monomial m c) := by
  refine represents_store fun t ht => ?_
  change t ∈ (FinSupp.single m c).entries at ht
  rw [FinSupp.single] at ht
  split at ht
  · cases ht
  · rw [List.mem_singleton.1 ht]
    exact h

/-- No operand of a text has an exponent above one. -/
theorem represents_operand (o : Operand) : (Poly.store o.poly).Represents o.poly := by
  cases o with
  | name n =>
    refine Poly.represents_store_monomial (fun w hw => ?_) 1
    rw [Meadow.Monomial.powers_power _ one_ne_zero] at hw
    rw [List.mem_singleton.1 hw]
    change 1 < UInt32.size
    decide
  | numeral n => exact Poly.represents_store_monomial (fun w hw => absurd hw List.not_mem_nil) _

/-! ## Statements -/

/-- The sides of one equation represent those of the other. -/
structure Equation.Represents (q : Equation) (q' : Meadow.Equation) : Prop where
  lhs : q.lhs.Represents q'.lhs
  rhs : q.rhs.Represents q'.rhs

/-- The statements are of the same kind, and the forms in one represent those in the other. -/
inductive Statement.Represents : Statement → Meadow.Statement → Prop
  | equation {q : Equation} {q' : Meadow.Equation} (h : q.Represents q') :
      Represents (.equation q) (.equation q')
  | value {f : Form} {x : Meadow.Form} (h : f.Represents x) : Represents (.value f) (.value x)

namespace Equation.Represents

variable {q : Equation} {q' : Meadow.Equation}

theorem difference (h : q.Represents q') :
    Ensures q.difference (·.Represents q'.difference) :=
  h.lhs.sub h.rhs

theorem render (h : q.Represents q') : Ensures q.render (· = q'.render) :=
  h.lhs.render.bind fun _ hl => h.rhs.render.map fun _ hr => by rw [hl, hr, Meadow.Equation.render]

end Equation.Represents

theorem ensures_apply (op : Operator) {f g : Form} {x y : Meadow.Form} (hf : f.Represents x)
    (hg : g.Represents y) : Ensures (apply op f g) (·.Represents (op.apply x y)) := by
  cases op with
  | equals => exact Machine.ensures_pure (.equation ⟨hf, hg⟩)
  | plus => exact (hf.add hg).map fun _ h => .value h
  | minus => exact (hf.sub hg).map fun _ h => .value h
  | times => exact (hf.mul hg).map fun _ h => .value h
  | divide => exact (hf.div hg).map fun _ h => .value h

/-! ## Readings -/

namespace Reading

variable {α β σ τ : Type} {R : α → σ → Prop} {S : β → τ → Prop}

/-- Unless an exponent overflows, the reading ends as it is said: with that error, or with what is
related to that value. -/
def Follows (R : α → σ → Prop) (c : Reading α) (x : Except ParseError σ) : Prop :=
  Ensures c.run (ExceptRel R · x)

theorem follows_pure {a : α} {b : σ} (h : R a b) : Follows R (pure a) (.ok b) :=
  Machine.ensures_pure (.ok h)

theorem follows_throw (e : ParseError) : Follows R (throw e) (.error e) :=
  Machine.ensures_pure (.error e)

theorem follows_lift {c : Machine α} {b : σ} (h : Ensures c (R · b)) :
    Follows R (ExceptT.lift c) (.ok b) := by
  change Ensures (Except.ok <$> c) _
  rw [map_eq_pure_bind]
  exact h.map fun _ ha => .ok ha

theorem Follows.bind {c : Reading α} {x : Except ParseError σ} {f : α → Reading β}
    {g : σ → Except ParseError τ} (h : Follows R c x)
    (hf : ∀ {a b}, R a b → Follows S (f a) (g b)) : Follows S (c >>= f) (x >>= g) := by
  rw [Follows, ExceptT.run_bind]
  refine Ensures.bind h fun r hr => ?_
  cases hr with
  | error e => exact Machine.ensures_pure (.error e)
  | ok hab => exact hf hab

/-- A reading whose value is only changed afterwards. -/
theorem Follows.map {c : Reading α} {x : Except ParseError σ} {f : α → β} {g : σ → τ}
    (h : Follows R c x) (hf : ∀ {a b}, R a b → S (f a) (g b)) :
    Follows S (do return f (← c)) (do return g (← x)) :=
  h.bind fun hab => follows_pure (hf hab)

end Reading

/-! ## Stacks -/

open Reading (Follows)

namespace Stacks

/-- Operands that represent the others, and the same that waits. -/
structure Represents (s : Stacks) (t : Meadow.Stacks) : Prop where
  operands : List.Forall₂ Statement.Represents s.operands t.operands
  pending : s.pending = t.pending

variable {fs : List Statement} {xs : List Meadow.Statement} {s : Stacks} {t : Meadow.Stacks}

theorem follows_applyTop (op : Operator) (h : List.Forall₂ Statement.Represents fs xs) :
    Follows (List.Forall₂ Statement.Represents) (applyTop op fs)
      (Meadow.Stacks.applyTop op xs) := by
  cases h with
  | nil => exact Reading.follows_throw _
  | cons h₁ h =>
    cases h with
    | nil => cases h₁ <;> exact Reading.follows_throw _
    | cons h₂ hrest =>
      cases h₁ with
      | equation _ => exact Reading.follows_throw _
      | value hb =>
        cases h₂ with
        | equation _ => exact Reading.follows_throw _
        | value ha =>
          have hvalue := Reading.follows_lift (R := Statement.Represents) (ensures_apply op ha hb)
          exact hvalue.map (S := List.Forall₂ Statement.Represents) (f := fun v => v :: _)
            (g := fun v => v :: _) fun h => .cons h hrest

theorem follows_applyBinding (incoming : Operator) (pending : List Pending)
    (h : List.Forall₂ Statement.Represents fs xs) :
    Follows Represents (applyBinding incoming pending fs)
      (Meadow.Stacks.applyBinding incoming pending xs) := by
  induction pending generalizing fs xs with
  | nil => exact Reading.follows_pure ⟨h, rfl⟩
  | cons p pending ih =>
    cases p with
    | paren => exact Reading.follows_pure ⟨h, rfl⟩
    | operator op =>
      rw [applyBinding, Meadow.Stacks.applyBinding]
      split
      · exact Reading.follows_pure ⟨h, rfl⟩
      · exact (follows_applyTop op h).bind ih

theorem follows_closeParen (pending : List Pending)
    (h : List.Forall₂ Statement.Represents fs xs) :
    Follows Represents (closeParen pending fs) (Meadow.Stacks.closeParen pending xs) := by
  induction pending generalizing fs xs with
  | nil => exact Reading.follows_throw _
  | cons p pending ih =>
    cases p with
    | paren => exact Reading.follows_pure ⟨h, rfl⟩
    | operator op => exact (follows_applyTop op h).bind ih

theorem follows_applyAll (pending : List Pending) (h : List.Forall₂ Statement.Represents fs xs) :
    Follows (List.Forall₂ Statement.Represents) (applyAll pending fs)
      (Meadow.Stacks.applyAll pending xs) := by
  induction pending generalizing fs xs with
  | nil => exact Reading.follows_pure h
  | cons p pending ih =>
    cases p with
    | paren => exact Reading.follows_throw _
    | operator op => exact (follows_applyTop op h).bind ih

theorem Represents.step (h : s.Represents t) (p : Piece) :
    Follows Represents (s.step p.token) (t.step p.token) := by
  obtain ⟨hoperands, hpending⟩ := h
  cases p with
  | leftParen => exact Reading.follows_pure ⟨hoperands, congrArg (.paren :: ·) hpending⟩
  | rightParen =>
    change Follows Represents (closeParen s.pending s.operands) _
    rw [hpending]
    exact follows_closeParen _ hoperands
  | operator op =>
    change Follows Represents (do
      let s ← applyBinding op s.pending s.operands
      return ⟨s.operands, .operator op :: s.pending⟩) _
    rw [hpending]
    exact (follows_applyBinding op _ hoperands).map fun h =>
      ⟨h.operands, congrArg (.operator op :: ·) h.pending⟩
  | operand o =>
    exact Reading.follows_pure ⟨.cons (.value (.poly (represents_operand o))) hoperands, hpending⟩

theorem Represents.finish (h : s.Represents t) :
    Follows Statement.Represents s.finish t.finish := by
  obtain ⟨hoperands, hpending⟩ := h
  rw [Stacks.finish, hpending]
  refine (follows_applyAll _ hoperands).bind fun hrest => ?_
  cases hrest with
  | nil => exact Reading.follows_throw _
  | cons hvalue hmore =>
    cases hmore with
    | nil => exact Reading.follows_pure hvalue
    | cons _ _ => exact Reading.follows_throw _

/-- Tokens that are taken in as they are read are those of the whole text, up to the first invalid
character. -/
theorem Represents.readFrom (position : ℕ) (cs : List Char) (h : s.Represents t) :
    Follows Represents (s.readFrom position cs) (t.takeIn (Lexing.ofChars position cs)) := by
  induction hn : cs.length using Nat.strong_induction_on generalizing position cs s t with
  | _ n ih =>
    subst hn
    rw [Stacks.readFrom]
    split
    · next hdrop =>
      rw [Lexing.ofChars_of_blank hdrop]
      exact Reading.follows_pure h
    · next c rest hdrop =>
      rw [Lexing.ofChars_of_cons hdrop]
      dsimp only
      cases hl : Lexeme.read? c rest with
      | none => exact Reading.follows_throw _
      | some l =>
        obtain ⟨p, rfl, -⟩ := Lexeme.exists_longest_of_read? hl
        have hpos := p.length_text_pos
        have hle : (c :: rest).length ≤ cs.length :=
          hdrop ▸ (List.dropWhile_sublist Unicode.isBlank).length_le
        rw [Meadow.Stacks.takeIn_cons]
        refine (h.step p).bind fun h => ih _ ?_ _ _ h rfl
        rw [List.length_drop]
        exact (Nat.sub_lt (by simp) hpos).trans_le hle

end Stacks

/-! ## Texts -/

/-- Unless an exponent overflows, a stored statement is read that represents the one that the text
makes, or the same error is found. -/
theorem Statement.follows_parse (text : String) :
    Follows Statement.Represents (Statement.parse text) (Meadow.Statement.parse text) := by
  have hstart : Stacks.start.Represents Meadow.Stacks.start := ⟨.nil, rfl⟩
  rw [Meadow.Statement.parse, Meadow.Statement.ofTokens?_eq]
  exact (hstart.readFrom 0 text.toList).bind fun h => h.finish

theorem ensures_outcome {d : Decision} {d' : Meadow.Decision} (h : Form.DecisionRel d d') :
    Ensures (outcome d) (· = .ofDecision d') := by
  cases h with
  | proven => exact Machine.ensures_pure rfl
  | refuted case hr => exact hr.render.map fun _ hs => by rw [hs, Outcome.ofDecision]

/-- Unless an exponent overflows, a line of input gets the same report. -/
theorem ensures_prove (limit : ℕ) (input : String) :
    Ensures (prove limit input) (· = Meadow.prove limit input) := by
  refine Ensures.bind (Statement.follows_parse input) fun r hr => ?_
  rw [Meadow.prove]
  generalize Meadow.Statement.parse input = r' at hr
  cases hr with
  | error e => exact Machine.ensures_pure rfl
  | ok h =>
    cases h with
    | value hf => exact hf.render.map fun _ hs => by rw [hs]
    | equation hq =>
      refine hq.difference.bind fun difference hd => (hd.decide limit).bind fun r hr => ?_
      dsimp only
      generalize Meadow.Form.decide limit _ = r' at hr
      cases hr with
      | error e => exact Machine.ensures_pure rfl
      | ok hdecision =>
        refine (ensures_outcome hdecision).bind fun _ ho => hq.render.bind fun _ he => ?_
        exact hd.render.map fun _ hs => by rw [ho, he, hs]

/-! ## Proven -/

open Expression in
/-- Unless an exponent overflows, an equation that is reported proven holds: whatever text renders
it, in every field of characteristic zero and at every valuation both sides have the same value. -/
theorem proven_sound {left right : Expression Arithmetic} {text : String}
    (hrenders : (equation left right).Renders text) (limit : ℕ) :
    Ensures (prove limit text) fun r => r.outcome = .proven →
      ∀ (K : Type*) [Field K] [CharZero K] (v : String → K), left.value v = right.value v := by
  refine (ensures_prove limit text).mono fun r hr hproven K _ _ v => ?_
  rw [hr] at hproven
  exact prove_sound hrenders hproven v

open Expression in
/-- Both builds prove that a quotient by zero is zero. -/
theorem proven_sound_div_zero :
    ∃ r, Returns (prove 16 "(((x/0)+y)=y)") r ∧ r.outcome = .proven ∧
      ∀ v : String → ℚ, v "x" / 0 + v "y" = v "y" := by
  have hreturns : Returns (prove 16 "(((x/0)+y)=y)")
      ⟨"(((x/0)+y)=y)", some "(y) = (y)", some "0", .proven⟩ := by decide_cbv
  have hrenders := renders_write
    (equation (.binary .plus (.binary .divide (letter 'x') (digit '0')) (letter 'y')) (letter 'y'))
  refine ⟨_, hreturns, rfl, fun v => ?_⟩
  have hvalue := (proven_sound.{0} hrenders 16).of_returns hreturns rfl ℚ v
  have hzero : (digit '0').value v = 0 := value_digit v '0' rfl
  change v "x" / (digit '0').value v + v "y" = v "y" at hvalue
  rwa [hzero] at hvalue

/-! ## Well-formed forms -/

namespace Form

variable {f g : Form}

theorem ensures_wellFormed {m : Machine Form} {x : Meadow.Form}
    (h : Ensures m (·.Represents x)) (hx : x.WellFormed) : Ensures m WellFormed :=
  h.mono fun _ hr => ⟨x, hr, hx⟩

/-- Unless an exponent overflows, all operations on well-formed forms give well-formed forms,
evaluation under any assumptions does, and what is read is well formed: a value, or the sides of an
equation and their difference. -/
theorem wellFormed_operations (hf : f.WellFormed) (hg : g.WellFormed) {a : Assumptions}
    (ha : a.Proper) (text : String) :
    Ensures f.neg WellFormed ∧ Ensures (f.add g) WellFormed ∧ Ensures (f.sub g) WellFormed ∧
      Ensures (f.mul g) WellFormed ∧ Ensures (f.div g) WellFormed ∧
      Ensures (f.eval a) WellFormed ∧
      Ensures (Statement.parse text).run fun r =>
        (∀ v, r = .ok (.value v) → v.WellFormed) ∧
        ∀ q, r = .ok (.equation q) →
          q.lhs.WellFormed ∧ q.rhs.WellFormed ∧ Ensures q.difference WellFormed := by
  obtain ⟨hneg, harith, heval, hvalue, hequation⟩ := Meadow.Form.wellFormed_invariant
  obtain ⟨x, hf, hx⟩ := hf
  obtain ⟨y, hg, hy⟩ := hg
  obtain ⟨b, ha⟩ := Assumptions.proper_iff.1 ha
  obtain ⟨hadd, hsub, hmul, hdiv⟩ := harith x y hx hy
  refine ⟨ensures_wellFormed hf.neg (hneg x hx), ensures_wellFormed (hf.add hg) hadd,
    ensures_wellFormed (hf.sub hg) hsub, ensures_wellFormed (hf.mul hg) hmul,
    ensures_wellFormed (hf.div hg) hdiv, ensures_wellFormed (hf.eval ha) (heval x b hx),
    Ensures.mono (Statement.follows_parse text) fun r hr => ?_⟩
  generalize hparse : Meadow.Statement.parse text = r' at hr
  cases hr with
  | error e => exact ⟨nofun, nofun⟩
  | ok h =>
    cases h with
    | value hv =>
      refine ⟨fun v heq => ?_, nofun⟩
      cases heq
      exact ⟨_, hv, hvalue text _ hparse⟩
    | equation hq =>
      refine ⟨nofun, fun q heq => ?_⟩
      cases heq
      obtain ⟨hlhs, hrhs, hdifference⟩ := hequation text _ hparse
      exact ⟨⟨_, hq.lhs, hlhs⟩, ⟨_, hq.rhs, hrhs⟩, ensures_wellFormed hq.difference hdifference⟩

/-- The sum of two inverses, a conditional in a conditional, as both builds read it. -/
theorem wellFormed_operations_inverses :
    let xy : Poly := .ofTerms [(⟨[("x", 1), ("y", 1)]⟩, 1)]
    let sum := cond (.var "x")
      (cond (.var "y") (frac ((Poly.var "x").add (.var "y")) xy) (frac .one (.var "x")))
      (frac .one (.var "y"))
    let a := Assumptions.ofVars [] []
    Returns (Statement.parse "1/x + 1/y").run (.ok (.value sum)) ∧ a.Proper ∧ sum.WellFormed ∧
      Ensures sum.neg WellFormed ∧ Ensures (sum.div sum) WellFormed ∧
      Ensures (sum.eval a) WellFormed := by
  intro xy sum a
  have hreturns : Returns (Statement.parse "1/x + 1/y").run (.ok (.value sum)) := by decide_cbv
  have ha : a.Proper := Assumptions.proper_iff.2 ⟨_, Assumptions.represents_ofVars [] []⟩
  have hzero : zero.WellFormed := ⟨_, represents_zero, Meadow.Form.wellFormed_poly _⟩
  have hread := (wellFormed_operations hzero hzero ha "1/x + 1/y").2.2.2.2.2.2
  have hsum := (hread.of_returns hreturns).1 _ rfl
  obtain ⟨hneg, -, -, -, hdiv, heval, -⟩ := wellFormed_operations hsum hsum ha ""
  exact ⟨hreturns, ha, hsum, hneg, hdiv, heval⟩

/-- The wrapping build multiplies the inverse of `x ^ 2 ^ 31` by itself to the inverse of a power
zero of `x`, which is one everywhere, though it is no constant, and not well formed. -/
theorem wellFormed_wraps :
    let f := frac .one (.monomial ⟨[("x", 0x80000000)]⟩ 1)
    f.WellFormed ∧ Overflows (f.mul f) ∧
      (f.mul f).value? .wrapping = some (frac .one (.monomial ⟨[("x", 0)]⟩ 1)) ∧
      ¬ (frac .one (.monomial ⟨[("x", 0)]⟩ 1)).WellFormed := by
  intro f
  have hpower := Poly.represents_monomial
    (Monomial.represents_power "x" (w := 0x80000000) (k := 0x80000000) rfl) 1
  refine ⟨⟨_, .frac Poly.represents_one hpower, by with_unfolding_all decide,
    by with_unfolding_all decide⟩, by decide_cbv, by decide_cbv, fun h => ?_⟩
  -- the exponent zero is in no proper monomial
  have hden : (Poly.monomial ⟨[("x", 0)]⟩ 1).Proper := h.proper.2
  have hterms : (Poly.monomial ⟨[("x", 0)]⟩ 1).terms = [(⟨[("x", 0)]⟩, 1)] := by
    rw [Poly.monomial, Poly.terms, FinSupp.single, dif_neg one_ne_zero]
  have hmonomial := hden (⟨[("x", 0)]⟩, 1) (hterms ▸ List.mem_cons_self)
  exact hmonomial.nonzero ("x", 0) List.mem_cons_self rfl

end Form

end Stored
end Meadow
