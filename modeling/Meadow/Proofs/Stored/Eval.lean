import Mathlib
import Meadow.CaseSplit
import Meadow.Proofs.Form.Roots
import Meadow.Proofs.Stored.Form
import Meadow.Stored.Eval

set_option autoImplicit false

/-!
# Evaluating stored forms

Sets of stored polynomials list their members in the order of what these represent, so assumptions
are met in the same order on either side, and evaluation does the same unless an exponent overflows.
Up to then it is sound (`Stored.Form.eval_zero_sound`), keeps the zeros of a polynomial
(`Stored.Assumptions.evalPoly_keeps_zeros`), and makes what has an irreducible root vanish with it
(`Stored.Assumptions.evalPoly_withZero_roots`).
-/

namespace Meadow.Stored

open Machine (Ensures Returns Overflows)

/-! ## Sets of polynomials -/

/-- The members of one set represent those of the other. -/
def SetRel (s : PolySet) (t : Meadow.PolySet) : Prop :=
  FinSupp.Related Poly.Represents (· = ·) s t

namespace SetRel

variable {s : PolySet} {t : Meadow.PolySet} {ps : List Poly} {as : List Meadow.Poly}

theorem insert (h : SetRel s t) {p : Poly} {a : Meadow.Poly} (hp : p.Represents a) :
    SetRel (FinSet.insert p s) (FinSet.insert a t) := by
  have hfalse {u v : Bool} (huv : u = v) : u = false ↔ v = false := by rw [huv]
  exact (FinSupp.related_single (R := Poly.Represents) (S := fun u v : Bool => u = v) hfalse hp
    rfl).merge hfalse (fun hk hl => hk.cmp hl) (fun hu hv => by rw [hu, hv]) h

theorem insertAll (hps : List.Forall₂ Poly.Represents ps as) (h : SetRel s t) :
    SetRel (FinSet.insertAll ps s) (FinSet.insertAll as t) :=
  List.rel_foldr (R := Poly.Represents) (P := SetRel) (fun _ _ hp _ _ hs => hs.insert hp) h hps

theorem ofList (hps : List.Forall₂ Poly.Represents ps as) :
    SetRel (FinSet.ofList ps) (FinSet.ofList as) :=
  insertAll hps FinSupp.related_empty

theorem toList (h : SetRel s t) : List.Forall₂ Poly.Represents s.toList t.toList :=
  FinSupp.Related.keys h

/-- A property of the values of all members. -/
theorem forall_value_iff {K : Type*} [Field K] (h : SetRel s t) (v : String → K) {P : K → Prop} :
    (∀ p ∈ s.toList, P (p.value v)) ↔ ∀ a ∈ t.toList, P (a.value v) := by
  have hvalues : s.toList.map (Poly.value v) = t.toList.map (Meadow.Poly.value v) :=
    List.forall₂_eq_eq_eq ▸ List.rel_map (fun _ _ hp => hp.value v) h.toList
  rw [← List.forall_mem_map, hvalues, List.forall_mem_map]

/-- The sets of proper polynomials are those that stand for a set. -/
theorem exists_iff : (∃ t, SetRel s t) ↔ ∀ p ∈ s.toList, p.Proper := by
  constructor
  · rintro ⟨t, h⟩
    have hproper : List.Forall₂ (fun p a => p.Proper ∧ p.Represents a) s.toList t.toList :=
      h.toList.imp fun p a hp => ⟨Poly.proper_iff.2 ⟨a, hp⟩, hp⟩
    exact ((List.forall₂_and_left _ _).1 hproper).1
  · intro h
    exact FinSupp.exists_related (fun hk hl => hk.cmp hl) fun p hp => Poly.proper_iff.1 (h p hp)

theorem contains (h : SetRel s t) {p : Poly} {a : Meadow.Poly} (hp : p.Represents a) :
    s.contains p = t.contains a :=
  FinSupp.Related.get (fun hk hl => hk.eq_iff hl) rfl h hp

end SetRel

/-! ## Assumptions -/

namespace Poly

variable {p : Poly} {a : Meadow.Poly}

theorem Represents.substituteZeros (h : p.Represents a) (vs : List String) :
    (p.substituteZeros vs).Represents (a.substituteZeros vs) :=
  List.rel_foldl (P := Represents) (R := fun v w : String => v = w)
    (fun _ _ hp _ _ hv => hv ▸ hp.substituteZero _) h (List.forall₂_same.2 fun _ _ => rfl)

end Poly

namespace Assumptions

/-- The same is assumed of what is represented. -/
structure Represents (a : Assumptions) (b : Meadow.Assumptions) : Prop where
  zeros : SetRel a.zeros b.zeros
  nonzeros : SetRel a.nonzeros b.nonzeros

variable {a : Assumptions} {b : Meadow.Assumptions} {p : Poly} {q : Meadow.Poly}

theorem represents_ofVars (zero nonzero : List String) :
    (ofVars zero nonzero).Represents (.ofVars zero nonzero) := by
  have hvars (vs : List String) :
      List.Forall₂ Poly.Represents (vs.map Poly.var) (vs.map Meadow.Poly.var) := by
    rw [List.forall₂_map_left_iff, List.forall₂_map_right_iff, List.forall₂_same]
    exact fun v _ => Poly.represents_var v
  exact ⟨.ofList (hvars zero), .ofList (hvars nonzero)⟩

theorem Represents.withZero (h : a.Represents b) (hp : p.Represents q) :
    (a.withZero p).Represents (b.withZero q) :=
  ⟨h.zeros.insert hp, h.nonzeros⟩

theorem Represents.withNonzeros (h : a.Represents b) {ps : List Poly} {qs : List Meadow.Poly}
    (hps : List.Forall₂ Poly.Represents ps qs) :
    (a.withNonzeros ps).Represents (b.withNonzeros qs) :=
  ⟨h.zeros, .insertAll hps h.nonzeros⟩

theorem Represents.zeroVars (h : a.Represents b) : a.zeroVars = b.zeroVars := by
  have hvars (p : Poly) (q : Meadow.Poly) (hp : p.Represents q) :
      Option.Rel (fun v w : String => v = w) p.asVariable? q.asVariable? := by
    rw [hp.asVariable?]
    cases q.asVariable? with
    | none => exact .none
    | some v => exact .some rfl
  exact List.forall₂_eq_eq_eq ▸ List.rel_filterMap hvars h.zeros.toList

/-- All polynomials that something is assumed of are proper. -/
structure Proper (a : Assumptions) : Prop where
  zeros : ∀ p ∈ a.zeros.toList, p.Proper
  nonzeros : ∀ p ∈ a.nonzeros.toList, p.Proper

theorem proper_iff : a.Proper ↔ ∃ b, a.Represents b := by
  constructor
  · rintro ⟨hzeros, hnonzeros⟩
    obtain ⟨s, hs⟩ := SetRel.exists_iff.2 hzeros
    obtain ⟨t, ht⟩ := SetRel.exists_iff.2 hnonzeros
    exact ⟨⟨s, t⟩, hs, ht⟩
  · rintro ⟨b, hzeros, hnonzeros⟩
    exact ⟨SetRel.exists_iff.1 ⟨_, hzeros⟩, SetRel.exists_iff.1 ⟨_, hnonzeros⟩⟩

/-! ## Polynomials -/

theorem Represents.zeroDivisors (h : a.Represents b) :
    List.Forall₂ Poly.Represents a.zeroDivisors b.zeroDivisors := by
  rw [Assumptions.zeroDivisors, Meadow.Assumptions.zeroDivisors, h.zeroVars]
  have hothers := rel_filter (p := fun p : Poly => p.asVariable?.isNone)
    (q := fun q : Meadow.Poly => q.asVariable?.isNone) (fun hp => by rw [hp.asVariable?])
    h.zeros.toList
  have hsubstituted := List.rel_map (P := Poly.Represents)
    (fun _ _ hp => hp.substituteZeros b.zeroVars) hothers
  exact rel_filter (fun hp => by rw [hp.isConstant]) hsubstituted

theorem Represents.evalFactors (h : a.Represents b) {ds : List Poly} {es : List Meadow.Poly}
    (hds : List.Forall₂ Poly.Represents ds es) {fs : List Poly} {gs : List Meadow.Poly}
    (hfs : List.Forall₂ Poly.Represents fs gs) {acc : Poly} {acc' : Meadow.Poly}
    (hacc : acc.Represents acc') :
    Ensures (evalFactors a ds acc fs) (·.Represents (b.evalFactors es acc' gs)) := by
  induction hfs generalizing acc acc' with
  | nil => exact Machine.ensures_pure hacc
  | @cons f g _ _ hf _ ih =>
    rw [Assumptions.evalFactors, Meadow.Assumptions.evalFactors, h.nonzeros.contains hf]
    split
    · exact ih hacc
    · have hleft := hf.substituteZeros b.zeroVars
      have hany : Ensures (ds.anyM fun d => do
          return (← (f.substituteZeros b.zeroVars).divExact? d).isSome)
          (· = es.any fun e => ((g.substituteZeros b.zeroVars).divExact? e).isSome) :=
        Ensures.anyM (R := Poly.Represents)
          (fun hd => (hleft.divExact? hd).map fun _ hr => isSome_eq_of_rel hr) hds
      dsimp only
      rw [h.zeroVars, hleft.isZero]
      by_cases hzero : (g.substituteZeros b.zeroVars).isZero = true
      · rw [if_pos hzero, hzero, Bool.true_or, if_pos rfl]
        exact Machine.ensures_pure Poly.represents_zero
      · rw [if_neg hzero, Bool.eq_false_iff.2 hzero, Bool.false_or]
        refine hany.bind fun found hfound => ?_
        rw [hfound]
        split
        · exact Machine.ensures_pure Poly.represents_zero
        · exact (hacc.mul hleft).bind fun _ hm => ih hm

theorem Represents.evalPoly (h : a.Represents b) (hp : p.Represents q) :
    Ensures (a.evalPoly p) (·.Represents (b.evalPoly q)) := by
  rw [Assumptions.evalPoly, Meadow.Assumptions.evalPoly, hp.isConstant]
  split
  · exact Machine.ensures_pure hp
  · exact hp.factors.bind fun fs hfs => h.evalFactors h.zeroDivisors hfs Poly.represents_one

end Assumptions

/-! ## Forms -/

namespace Form

variable {f : Form} {x : Meadow.Form}

theorem Represents.eval (h : f.Represents x) {a : Assumptions} {b : Meadow.Assumptions}
    (ha : a.Represents b) : Ensures (f.eval a) (·.Represents (x.eval b)) := by
  induction h generalizing a b with
  | poly hp => exact (ha.evalPoly hp).map fun _ hq => .poly hq
  | frac hn hd =>
    exact (ha.evalPoly hn).bind fun _ hn => (ha.evalPoly hd).bind fun _ hd =>
      (Represents.poly hn).mul (.poly hd)
  | @cond c c' t e t' e' hc _ _ iht ihe =>
    rw [Form.eval, Meadow.Form.eval]
    refine (ha.evalPoly hc).bind fun c hc => hc.factors.bind fun roots hroots => ?_
    dsimp only
    generalize b.evalPoly c' = d at hc hroots
    have hany : roots.any a.zeros.contains = d.factors.any b.zeros.contains :=
      rel_any (fun hr => ha.zeros.contains hr) hroots
    have hall : roots.all a.nonzeros.contains = d.factors.all b.nonzeros.contains :=
      rel_all (fun hr => ha.nonzeros.contains hr) hroots
    rw [hc.isZero, hany]
    split
    · exact ihe ha
    · refine (iht (ha.withNonzeros hroots)).bind fun t ht => ?_
      rw [hc.isConstant, hall, ht.isZero]
      split
      · exact Machine.ensures_pure ht
      · split
        · exact (ihe ha).bind fun e he => represents_branch hc ht he
        · have hunsettled := rel_filter (p := fun r => !a.nonzeros.contains r)
            (q := fun r => !b.nonzeros.contains r) (fun hr => by rw [ha.nonzeros.contains hr])
            hroots
          refine (Ensures.findSomeM? (R := Poly.Represents) (S := Represents) (fun hr => ?_)
            hunsettled).map fun r hr => rel_getD hr represents_zero
          refine (ihe (ha.withZero hr)).map fun e he => ?_
          rw [he.isZero]
          split
          · exact .none
          · exact .some he

/-! ## The decision -/

/-- Decisions of the same kind, with the same case and what represents the residue. -/
inductive DecisionRel : Decision → Meadow.Decision → Prop
  | proven : DecisionRel .proven .proven
  | refuted (case : Case) {r : Form} {s : Meadow.Form} (h : r.Represents s) :
      DecisionRel (.refuted case r) (.refuted case s)

theorem Represents.decideFrom (h : f.Represents x) (vars : List String) (remaining n : ℕ) :
    Ensures (f.decideFrom vars remaining n) (DecisionRel · (x.decideFrom vars remaining n)) := by
  induction remaining generalizing n with
  | zero => exact Machine.ensures_pure .proven
  | succ remaining ih =>
    rw [Form.decideFrom, Meadow.Form.decideFrom]
    refine (h.eval (Assumptions.represents_ofVars _ _)).bind fun r hr => ?_
    exact Ensures.ite (S := DecisionRel) (iff_of_eq (congrArg (· = true) hr.isZero)) (ih (n + 1))
      (Machine.ensures_pure (.refuted _ hr))

theorem Represents.decide (h : f.Represents x) (limit : ℕ) :
    Ensures (f.decide limit) (ExceptRel DecisionRel · (x.decide limit)) := by
  unfold Form.decide Meadow.Form.decide
  rw [h.vars]
  dsimp only
  split
  · exact Machine.ensures_pure (.error _)
  · exact (h.decideFrom _ _ _).map fun _ hd => .ok hd

end Form

/-! ## Zeros -/

namespace Assumptions

/-- Unless an exponent overflows, evaluation keeps the zeros of a polynomial: where all that is
assumed to be zero vanishes and nothing that is assumed not to be zero does, the evaluation vanishes
exactly if the polynomial does. -/
theorem evalPoly_keeps_zeros {K : Type*} [Field K] [CharZero K] {a : Assumptions} {p : Poly}
    (ha : a.Proper) (hp : p.Proper) (v : String → K)
    (hzeros : ∀ z ∈ a.zeros.toList, z.value v = 0)
    (hnonzeros : ∀ n ∈ a.nonzeros.toList, n.value v ≠ 0) :
    Ensures (a.evalPoly p) fun q => q.value v = 0 ↔ p.value v = 0 := by
  obtain ⟨b, ha⟩ := proper_iff.1 ha
  obtain ⟨c, hp⟩ := Poly.proper_iff.1 hp
  refine (ha.evalPoly hp).mono fun q hq => ?_
  rw [hq.value, hp.value]
  exact Meadow.Assumptions.evalPoly_vanishes_iff c b v
    ((ha.zeros.forall_value_iff v (P := fun y => y = 0)).1 hzeros)
    ((ha.nonzeros.forall_value_iff v (P := fun y => y ≠ 0)).1 hnonzeros)

/-- Assume that `x + y` is zero and that `x - y` is not. -/
def opposites : Assumptions := ⟨.ofList [Poly.line 1], .ofList [(Poly.var "x").sub (.var "y")]⟩

/-- The number `1` for `x` and `-1` for all other variables. -/
def atOpposites (w : String) : ℚ := if w = "x" then 1 else -1

theorem holds_opposites :
    opposites.Proper ∧ (∀ z ∈ opposites.zeros.toList, z.value atOpposites = 0) ∧
      ∀ n ∈ opposites.nonzeros.toList, n.value atOpposites ≠ 0 := by
  have hzeros : opposites.zeros.toList.map Poly.terms =
      [[(⟨[("x", 1)]⟩, 1), (⟨[("y", 1)]⟩, 1)]] := by with_unfolding_all decide
  have hnonzeros : opposites.nonzeros.toList.map Poly.terms =
      [[(⟨[("x", 1)]⟩, 1), (⟨[("y", 1)]⟩, -1)]] := by with_unfolding_all decide
  have hdifference := (Poly.represents_var "x").sub (Poly.represents_var "y")
  refine ⟨proper_iff.2 ⟨⟨_, _⟩, .ofList (.cons (Poly.represents_line 1) .nil),
    .ofList (.cons hdifference .nil)⟩, fun z hz => ?_, fun n hn => ?_⟩
  · have hterms := List.mem_singleton.1 (hzeros ▸ List.mem_map_of_mem (f := Poly.terms) hz)
    simp [Poly.value, hterms, Monomial.value, atOpposites]
  · have hterms := List.mem_singleton.1 (hnonzeros ▸ List.mem_map_of_mem (f := Poly.terms) hn)
    simp [Poly.value, hterms, Monomial.value, atOpposites]

/-- Under these assumptions `(x + y) ^ 2 * (x - y)` evaluates to zero in both builds, and so it is
zero at such opposites. -/
theorem evalPoly_keeps_zeros_opposites :
    Poly.cubic.Proper ∧ Returns (opposites.evalPoly Poly.cubic) .zero ∧
      Poly.cubic.value atOpposites = 0 := by
  have hproper : Poly.cubic.Proper := Poly.proper_iff.2 ⟨_, Poly.represents_cubic⟩
  have hreturns : Returns (opposites.evalPoly Poly.cubic) .zero := by decide_cbv
  obtain ⟨hassumptions, hzeros, hnonzeros⟩ := holds_opposites
  have hiff := (evalPoly_keeps_zeros hassumptions hproper _ hzeros hnonzeros).of_returns hreturns
  exact ⟨hproper, hreturns, hiff.1 rfl⟩

/-- Assume that `x - y ^ K` is zero, where `3 * K = 2 ^ 33 + 1`. -/
def cubeRoot : Assumptions :=
  ⟨.ofList [.ofTerms [(.power "x" 1, 1), (.power "y" 2863311531, -1)]], .ofList []⟩

/-- The cubic `x ^ 3 - y`. -/
def cusp : Poly := .ofTerms [(.power "x" 3, 1), (.power "y" 1, -1)]

/-- Where `y` is two and `x` is `y ^ K`, the root is zero and the cubic is not. -/
theorem holds_cubeRoot :
    cubeRoot.Proper ∧ cusp.Proper ∧ ∃ v : String → ℚ, (∀ z ∈ cubeRoot.zeros.toList, z.value v = 0) ∧
      (∀ n ∈ cubeRoot.nonzeros.toList, n.value v ≠ 0) ∧ cusp.value v ≠ 0 := by
  have hcusp : cusp.terms = [(⟨[("x", 3)]⟩, 1), (⟨[("y", 1)]⟩, -1)] := by with_unfolding_all decide
  have hcusp' : cusp.Represents (.ofTerms [(.power "x" 3, 1), (.power "y" 1, -1)]) := by
    with_unfolding_all decide
  have hroot : (Poly.ofTerms [(.power "x" 1, 1), (.power "y" 2863311531, -1)]).Represents
      (.ofTerms [(.power "x" 1, 1), (.power "y" 2863311531, -1)]) := by with_unfolding_all decide
  have hzeros : cubeRoot.zeros.toList.map Poly.terms =
      [[(⟨[("x", 1)]⟩, 1), (⟨[("y", 2863311531)]⟩, -1)]] := by with_unfolding_all decide
  -- the exponent gets a name so that no step works out the power
  obtain ⟨k, hk⟩ : ∃ k : ℕ, k = 2863311531 := ⟨_, rfl⟩
  have htwo : (2 : ℚ) ≤ 2 ^ k := le_self_pow₀ one_le_two (by omega)
  refine ⟨proper_iff.2 ⟨⟨_, _⟩, .ofList (.cons hroot .nil), .ofList .nil⟩,
    Poly.proper_iff.2 ⟨_, hcusp'⟩, fun w => if w = "x" then 2 ^ k else 2, fun z hz => ?_, nofun, ?_⟩
  · have hterms := List.mem_singleton.1 (hzeros ▸ List.mem_map_of_mem (f := Poly.terms) hz)
    simp [Poly.value, hterms, Monomial.value, ← hk]
  · have hcube : (2 : ℚ) ^ 3 ≤ (2 ^ k) ^ 3 := pow_le_pow_left₀ zero_le_two htwo 3
    have hne : ((2 : ℚ) ^ k) ^ 3 + -2 ≠ 0 := by linarith
    simpa [Poly.value, hcusp, Monomial.value] using hne

/-- The cube of `y ^ K` overflows to `y`.  So the wrapping build takes `x - y ^ K` for a divisor of
`x ^ 3 - y` and evaluates the cubic to zero, which it is not wherever the root is. -/
theorem evalPoly_wraps :
    cubeRoot.Proper ∧ cusp.Proper ∧ Overflows (cubeRoot.evalPoly cusp) ∧
      (cubeRoot.evalPoly cusp).value? .wrapping = some .zero ∧
      ∃ v : String → ℚ, (∀ z ∈ cubeRoot.zeros.toList, z.value v = 0) ∧
        (∀ n ∈ cubeRoot.nonzeros.toList, n.value v ≠ 0) ∧ cusp.value v ≠ 0 := by
  obtain ⟨hassumptions, hcusp, hv⟩ := holds_cubeRoot
  exact ⟨hassumptions, hcusp, by decide_cbv, by decide_cbv, hv⟩

end Assumptions

namespace Form

/-- Unless an exponent overflows, evaluation is sound under any assumptions: a form that evaluates
to zero is zero wherever the polynomials assumed to be zero are and those assumed not to be are
not. -/
theorem eval_zero_sound {K : Type*} [Field K] [CharZero K] {f : Form} {a : Assumptions}
    (hf : f.Proper) (ha : a.Proper) (v : String → K)
    (hzeros : ∀ z ∈ a.zeros.toList, z.value v = 0)
    (hnonzeros : ∀ n ∈ a.nonzeros.toList, n.value v ≠ 0) :
    Ensures (f.eval a) fun r => r.isZero = true → f.value v = 0 := by
  obtain ⟨b, ha⟩ := Assumptions.proper_iff.1 ha
  obtain ⟨x, hf⟩ := proper_iff.1 hf
  refine (hf.eval ha).mono fun r hr hzero => ?_
  rw [hr.isZero] at hzero
  rw [hf.value]
  exact Meadow.Form.eval_sound x b hzero v
    ((ha.zeros.forall_value_iff v (P := fun y => y = 0)).1 hzeros)
    ((ha.nonzeros.forall_value_iff v (P := fun y => y ≠ 0)).1 hnonzeros)

/-- The conditional that is `(x + y) ^ 2 * (x - y)` where `x - y` is not zero, and one where it is,
evaluates to zero in both builds, and so it is zero at such opposites. -/
theorem eval_zero_sound_opposites :
    let f : Form := .cond ((Poly.var "x").sub (.var "y")) (.poly Poly.cubic) (.poly .one)
    f.Proper ∧ Returns (f.eval .opposites) .zero ∧ f.value Assumptions.atOpposites = 0 := by
  intro f
  have hdifference := (Poly.represents_var "x").sub (Poly.represents_var "y")
  have hproper : f.Proper := proper_iff.2
    ⟨_, .cond hdifference (.poly Poly.represents_cubic) (.poly Poly.represents_one)⟩
  have hreturns : Returns (f.eval .opposites) .zero := by decide_cbv
  obtain ⟨hassumptions, hzeros, hnonzeros⟩ := Assumptions.holds_opposites
  have hsound := (eval_zero_sound hproper hassumptions _ hzeros hnonzeros).of_returns hreturns
  exact ⟨hproper, hreturns, hsound rfl⟩

/-- The wrapping build evaluates `x ^ 3 - y` as a form to zero, too. -/
theorem eval_wraps :
    let f := poly Assumptions.cusp
    f.Proper ∧ Overflows (f.eval .cubeRoot) ∧ (f.eval .cubeRoot).value? .wrapping = some .zero ∧
      ∃ v : String → ℚ, (∀ z ∈ Assumptions.cubeRoot.zeros.toList, z.value v = 0) ∧
        (∀ n ∈ Assumptions.cubeRoot.nonzeros.toList, n.value v ≠ 0) ∧ f.value v ≠ 0 := by
  intro f
  obtain ⟨-, hcusp, hv⟩ := Assumptions.holds_cubeRoot
  obtain ⟨c, hc⟩ := Poly.proper_iff.1 hcusp
  exact ⟨proper_iff.2 ⟨_, .poly hc⟩, by decide_cbv, by decide_cbv, hv⟩

end Form

namespace Assumptions

/-! ## Roots -/

/-- Let only variables be assumed to be zero.  Unless an exponent overflows, of each root of the
evaluation of a polynomial the following holds, where it is assumed to be zero as well: the
polynomial evaluates to zero exactly if a multiple of the root is left of a single factor; an
irreducible root makes it do so; and the evaluation evaluates to zero in any case, if only the root
is not assumed not to be zero. -/
theorem evalPoly_withZero_roots {a : Assumptions} {b : Meadow.Assumptions} {p : Poly}
    {p' : Meadow.Poly} (ha : a.Represents b) (hp : p.Represents p')
    (hzeros : ∀ z ∈ a.zeros.toList, ∃ w, z = .var w) :
    Ensures (a.evalPoly p) fun q => q.isConstant = false → Ensures q.factors fun roots =>
      ∀ r ∈ roots, ∃ r', r.Represents r' ∧
        (Ensures ((a.withZero r).evalPoly p) fun s => s = .zero ↔
          ∃ f ∈ p'.factors, b.nonzeros.contains f = false ∧ r' ∣ f.substituteZeros b.zeroVars) ∧
        (Irreducible r' → Ensures ((a.withZero r).evalPoly p) (· = .zero)) ∧
        (a.nonzeros.contains r = false → Ensures ((a.withZero r).evalPoly q) (· = .zero)) := by
  have hvars : ∀ z ∈ b.zeros.toList, ∃ w, z = .var w := by
    intro z hz
    obtain ⟨y, hy, hrel⟩ := exists_mem_of_rel ha.zeros.toList.flip hz
    obtain ⟨w, rfl⟩ := hzeros y hy
    exact ⟨w, (Poly.Represents.eq_iff (Poly.represents_var w) hrel).1 rfl ▸ rfl⟩
  refine (ha.evalPoly hp).mono fun q hq hconst => hq.factors.mono fun roots hroots r hr => ?_
  rw [hq.isConstant] at hconst
  obtain ⟨r', hr', hrel⟩ := exists_mem_of_rel hroots hr
  obtain ⟨hiff, hirreducible, hself⟩ :=
    Meadow.Assumptions.evalPoly_withZero_root hvars hconst hr'
  have hwith := ha.withZero hrel
  refine ⟨r', hrel, (hwith.evalPoly hp).mono fun s hs => hs.eq_zero_iff.trans hiff,
    fun h => (hwith.evalPoly hp).mono fun s hs => hs.eq_zero_iff.2 (hirreducible h),
    fun h => (hwith.evalPoly hq).mono fun s hs => hs.eq_zero_iff.2 (hself ?_)⟩
  rwa [← ha.nonzeros.contains hrel]

/-- With zero for `z`, `x ^ 2 + y + z` has the root `x ^ 2 + y` in both builds, and either
evaluates to zero if the root is assumed to be. -/
theorem evalPoly_withZero_roots_parabola :
    let p : Poly := .ofTerms [(.power "x" 2, 1), (.power "y" 1, 1), (.power "z" 1, 1)]
    let r : Poly := .ofTerms [(.power "x" 2, 1), (.power "y" 1, 1)]
    let a := ofVars ["z"] ["y"]
    Returns (a.evalPoly p) r ∧ Returns r.factors [r] ∧
      Ensures ((a.withZero r).evalPoly p) (· = .zero) ∧
      Ensures ((a.withZero r).evalPoly r) (· = .zero) := by
  intro p r a
  have hp : p.Represents (.ofTerms [(.power "x" 2, 1), (.power "y" 1, 1), (.power "z" 1, 1)]) := by
    with_unfolding_all decide
  have hr : r.Represents (.ofTerms [(.power "x" 2, 1), (.power "y" 1, 1)]) := by
    with_unfolding_all decide
  have hzeros (z : Poly) (hz : z ∈ a.zeros.toList) : ∃ w, z = .var w :=
    ⟨"z", List.mem_singleton.1 (FinSet.contains_ofList.1 (FinSet.mem_toList_iff.1 hz))⟩
  have heval : Returns (a.evalPoly p) r := by decide_cbv
  have hfactors : Returns r.factors [r] := by decide_cbv
  have hafter := evalPoly_withZero_roots (represents_ofVars ["z"] ["y"]) hp hzeros
  have hroots := (hafter.of_returns heval (by with_unfolding_all decide)).of_returns hfactors
  obtain ⟨r', hr', -, hzero, hself⟩ := hroots r List.mem_cons_self
  obtain rfl := (hr'.eq_iff hr).1 rfl
  have hirreducible := Meadow.Poly.irreducible_of_isEvidentlyIrreducible
    (hr'.isConstant.symm.trans (by with_unfolding_all decide)) (by with_unfolding_all decide)
  exact ⟨heval, hfactors, hzero hirreducible, hself (by with_unfolding_all decide)⟩

/-- A root need not make the polynomial zero, with no exponent near an overflow.  Without any
assumption, two lines are left of two lines of which one is repeated.  They are kept whole, and so
they are a root.  But the repeated line tells the factors of the polynomial apart, and the root
divides neither. -/
theorem evalPoly_withZero_repeatedLine :
    let lines : Poly :=
      .ofTerms [(.power "x" 2, 1), (⟨[("x", 1), ("y", 171)]⟩, 3), (.power "y" 342, 2)]
    let p : Poly := .ofTerms [(.power "x" 3, 1), (⟨[("x", 2), ("y", 171)]⟩, 5),
      (⟨[("x", 1), ("y", 342)]⟩, 8), (.power "y" 513, 4)]
    let a := ofVars [] []
    p.Proper ∧ Returns (a.evalPoly p) lines ∧ lines.isConstant = false ∧
      Returns lines.factors [lines] ∧ a.nonzeros.contains lines = false ∧
      Returns ((a.withZero lines).evalPoly p) lines ∧ lines ≠ .zero := by
  intro lines p a
  have hp : p.Represents (.ofTerms [(.power "x" 3, 1),
      ((Meadow.Monomial.power "x" 2).mul (.power "y" 171), 5),
      ((Meadow.Monomial.power "x" 1).mul (.power "y" 342), 8), (.power "y" 513, 4)]) := by
    with_unfolding_all decide
  exact ⟨Poly.proper_iff.2 ⟨_, hp⟩, by decide_cbv, by with_unfolding_all decide, by decide_cbv,
    by with_unfolding_all decide, by decide_cbv, by with_unfolding_all decide⟩

end Assumptions

end Meadow.Stored
