import Mathlib
import Meadow.Proofs.Form.Variables
import Meadow.Proofs.Stored.Form
import Meadow.Proofs.Text.Rendering

set_option autoImplicit false

/-!
# The text of stored forms

Stored forms are written as the forms that they represent are, unless an exponent overflows while
their polynomials are factored.  So a text denotes the value of the form that it was written for
(`Stored.Form.render_denotes`).  The wrapping build may write another polynomial
(`Stored.Poly.render_factorize_wraps`).
-/

namespace Meadow

open Machine (Ensures Returns Overflows)

theorem Form.named_iff {x : Form} : x.Named ↔ ∀ w ∈ x.vars, IsName w := by
  induction x with
  | poly p => simp only [Named, Poly.Named, mem_vars_poly]
  | frac n d => simp only [Named, Poly.Named, mem_vars_frac, or_imp, forall_and]
  | cond c t e iht ihe =>
    simp only [Named, Poly.Named, mem_vars_cond, iht, ihe, or_imp, forall_and]

namespace Stored

/-! ## The text of forms -/

theorem Poly.Represents.renderFactored {p : Poly} {a : Meadow.Poly} (h : p.Represents a) :
    Ensures p.renderFactored (· = a.renderFactored) := by
  rw [Poly.renderFactored, Meadow.Poly.renderFactored, h.isConstant]
  split
  · exact h.render
  · exact h.factorize.bind fun f hf => hf.render.map fun text htext => by rw [htext]

namespace Form

variable {f : Form} {x : Meadow.Form}

theorem Represents.render (h : f.Represents x) : Ensures f.render (· = x.render) := by
  induction h with
  | poly hp => exact hp.renderFactored
  | frac hn hd =>
    exact hn.renderFactored.bind fun _ hn => hd.renderFactored.map fun _ hd => hn ▸ hd ▸ rfl
  | cond hc _ _ iht ihe =>
    refine hc.renderFactored.bind fun _ hc => iht.bind fun _ ht => ihe.map fun _ he => ?_
    rw [hc, ht, he]
    rfl

end Form

/-! ## What is written is what is meant -/

section Denotes

variable {K : Type*} [Field K] [CharZero K]

/-- With the usual conventions, and unless something overflows, the text of a well-formed form has
exactly one value, which is that of the form; the texts of a polynomial and of its factorization
have the value of the polynomial.  So polynomials that are written alike are equal. -/
theorem Form.render_denotes (v : String → K) :
    (∀ f : Form, f.WellFormed → (∀ w ∈ f.vars, IsName w) →
      Ensures f.render fun s => ∀ y, TextEvaluates v s y ↔ y = f.value v) ∧
    (∀ p : Poly, p.Proper → (∀ w ∈ p.vars, IsName w) →
      Ensures (do (← p.factorize).render) (fun s => ∀ y, TextEvaluates v s y ↔ y = p.value v) ∧
      Ensures p.render fun s => ∀ y, TextEvaluates v s y ↔ y = p.value v) ∧
    ∀ p q : Poly, p.Proper → (∀ w ∈ p.vars, IsName w) → q.Proper → (∀ w ∈ q.vars, IsName w) →
      Ensures p.render (fun s => Ensures q.render fun t => s = t → p = q) ∧
      Ensures (do (← p.factorize).render) fun s =>
        Ensures (do (← q.factorize).render) fun t => s = t → p = q := by
  obtain ⟨hform, hfactorization, hpoly, hequal, hequal'⟩ := textEvaluates_render v
  have hfactored {p : Poly} {a : Meadow.Poly} (h : p.Represents a) :
      Ensures (do (← p.factorize).render) (· = a.factorize.render) :=
    h.factorize.bind fun _ hf => hf.render
  refine ⟨fun f hf hnames => ?_, fun p hp hnames => ?_, fun p q hp hpnames hq hqnames => ?_⟩
  · obtain ⟨x, hf, hwf⟩ := hf
    rw [hf.vars] at hnames
    refine hf.render.mono fun s hs y => ?_
    rw [hs, hf.value]
    exact hform x hwf (Meadow.Form.named_iff.2 hnames) y
  · obtain ⟨a, hp⟩ := Poly.proper_iff.1 hp
    rw [hp.vars] at hnames
    refine ⟨(hfactored hp).mono fun s hs y => ?_, hp.render.mono fun s hs y => ?_⟩
    · rw [hs, hp.value]
      exact hfactorization a hnames y
    · rw [hs, hp.value]
      exact hpoly a hnames y
  · obtain ⟨a, hp⟩ := Poly.proper_iff.1 hp
    obtain ⟨b, hq⟩ := Poly.proper_iff.1 hq
    rw [hp.vars] at hpnames
    rw [hq.vars] at hqnames
    refine ⟨hp.render.mono fun s hs => hq.render.mono fun t ht heq => ?_,
      (hfactored hp).mono fun s hs => (hfactored hq).mono fun t ht heq => ?_⟩
    · exact (hp.eq_iff hq).2 (hequal a b hpnames hqnames (hs.symm.trans (heq.trans ht)))
    · exact (hp.eq_iff hq).2 (hequal' a b hpnames hqnames (hs.symm.trans (heq.trans ht)))

end Denotes

/-- A conditional with a negative fraction for a branch, and a sum that is written in one way
however it was added up, in both builds. -/
theorem Form.render_denotes_halves :
    let form := Form.cond (.var "x") (.poly (.constant (-1 / 2))) (.frac .one (.var "y"))
    let sum := (Poly.var "x").sub ((Poly.var "y").scale (3 / 4))
    form.WellFormed ∧ Returns form.render "(((x)/(x)) * -1/2 + (1 - (x)/(x)) * (1 / (y)))" ∧
      (∀ y, TextEvaluates (fun _ => (2 : ℚ)) "(((x)/(x)) * -1/2 + (1 - (x)/(x)) * (1 / (y)))" y ↔
        y = form.value fun _ => 2) ∧
      Returns sum.render "x - 3/4*y" ∧
      ∀ y, TextEvaluates (fun _ => (2 : ℚ)) "x - 3/4*y" y ↔ y = sum.value fun _ => 2 := by
  intro form sum
  have hwf : (Meadow.Form.cond (.var "x") (.poly (.constant (-1 / 2)))
      (.frac .one (.var "y"))).WellFormed := by
    refine ⟨⟨rfl, by with_unfolding_all decide, nofun, nofun, nofun, nofun, ?_⟩, trivial, ?_, rfl⟩
    · rintro n d ⟨⟩
      exact ⟨by with_unfolding_all decide, by with_unfolding_all decide⟩
    · with_unfolding_all decide
  have hform : form.WellFormed := ⟨_, .cond (Poly.represents_var "x")
    (.poly (Poly.represents_constant (-1 / 2)))
    (.frac Poly.represents_one (Poly.represents_var "y")), hwf⟩
  have hx : IsName "x" := ⟨.letter 'x' (by decide), rfl⟩
  have hy : IsName "y" := ⟨.letter 'y' (by decide), rfl⟩
  have named {w : String} (hw : w ∈ ["x", "y"]) : IsName w := by
    rcases List.mem_cons.1 hw with rfl | hw
    · exact hx
    · rwa [List.mem_singleton.1 hw]
  have hsum : sum.Proper := Poly.proper_iff.2
    ⟨_, (Poly.represents_var "x").sub ((Poly.represents_var "y").scale (3 / 4))⟩
  have hformText : Returns form.render "(((x)/(x)) * -1/2 + (1 - (x)/(x)) * (1 / (y)))" := by
    decide_cbv
  have hsumText : Returns sum.render "x - 3/4*y" := by decide_cbv
  obtain ⟨hforms, hpolys, -⟩ := Form.render_denotes fun _ => (2 : ℚ)
  have hformNames : form.vars = ["x", "y"] := by with_unfolding_all decide
  have hsumNames : sum.vars = ["x", "y"] := by with_unfolding_all decide
  have hformValue := hforms form hform fun w hw => named (hformNames ▸ hw)
  have hsumValue := (hpolys sum hsum fun w hw => named (hsumNames ▸ hw)).2
  exact ⟨hform, hformText, hformValue.of_returns hformText, hsumText,
    hsumValue.of_returns hsumText⟩

/-- The wrapping build writes `tower` as a product with another value where all variables are
zero. -/
theorem Poly.render_factorize_wraps :
    tower.Proper ∧ Overflows (do (← tower.factorize).render) ∧
      ∃ s, (do (← tower.factorize).render : Machine String).value? .wrapping = some s ∧
        TextEvaluates (fun _ => (0 : ℚ)) s 8 ∧ tower.value (fun _ => (0 : ℚ)) = 4 := by
  let g : Meadow.Factorization := ⟨1, [(base', 1), (tower', 1)]⟩
  have named {w : String} (hw : w ∈ ["a", "b", "c"]) : IsName w := by
    simp only [List.mem_cons, List.not_mem_nil, or_false] at hw
    rcases hw with rfl | rfl | rfl
    · exact ⟨.letter 'a' (by decide), rfl⟩
    · exact ⟨.letter 'b' (by decide), rfl⟩
    · exact ⟨.letter 'c' (by decide), rfl⟩
  have hvars : base'.vars ⊆ ["a", "b", "c"] ∧ tower'.vars ⊆ ["a", "b", "c"] := by
    with_unfolding_all decide
  have hsizes : ¬ base'.size ≤ 1 ∧ ¬ tower'.size ≤ 1 := by with_unfolding_all decide
  have hlegible : g.Legible := by
    have heach {P : Meadow.Poly × ℕ → Prop} (hbase : P (base', 1)) (htower : P (tower', 1)) :
        ∀ f ∈ g.factors, P f := List.forall_mem_cons.2 ⟨hbase, List.forall_mem_singleton.2 htower⟩
    exact ⟨heach (fun _ hw => named (hvars.1 hw)) fun _ hw => named (hvars.2 hw),
      heach Nat.one_pos Nat.one_pos,
      heach (fun h => absurd h hsizes.1) fun h => absurd h hsizes.2⟩
  have hvalue :
      (do (← tower.factorize).render : Machine String).value? .wrapping = some g.render := by
    decide_cbv
  have hbase : base.value (fun _ => (0 : ℚ)) = 2 := by
    have hterms : base.terms = [(⟨[("b", 1), ("c", 0x80000001)]⟩, 1), (.one, 2)] := by
      with_unfolding_all decide
    simp [Poly.value, hterms, Monomial.value, Monomial.one]
  have htower : tower.value (fun _ => (0 : ℚ)) = 4 := by
    have hterms : tower.terms = [(⟨[("a", 1), ("b", 1), ("c", 0x80000001)]⟩, 1), (⟨[("a", 1)]⟩, 2),
        (⟨[("b", 2), ("c", 2)]⟩, 1), (⟨[("b", 1), ("c", 0x80000001)]⟩, 4), (.one, 4)] := by
      with_unfolding_all decide
    simp [Poly.value, hterms, Monomial.value, Monomial.one]
  have hshows := hlegible.shows_render (v := fun _ => (0 : ℚ))
  rw [Meadow.Factorization.value_expand] at hshows
  refine ⟨proper_iff.2 ⟨_, represents_tower⟩, by decide_cbv, _, hvalue, ?_, htower⟩
  rw [show (8 : ℚ) = _ from ?_]
  · exact hshows.textEvaluates
  · simp [g, ← represents_base.value, ← represents_tower.value, hbase, htower]
    norm_num

end Stored
end Meadow
