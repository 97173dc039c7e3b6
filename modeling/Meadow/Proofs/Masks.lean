import Mathlib
import Meadow.Proofs.CaseSplit
import Meadow.Proofs.Settings

set_option autoImplicit false

/-!
# Cases as masks

A case is told by the bits of a machine word.  As long as there are fewer variables than bits
in a word, the words below a power of two give every case exactly once, and a decision looks
through these cases in order (`Form.decide_eq_search`).  The limit in the settings keeps the
number of variables well below the number of bits (`caseSplit_exhaustive`).
-/

namespace Meadow

universe u

/-! ## Masks -/

/-- The word of which only the bit at a given place is one. -/
def bit (i : ℕ) : UInt64 := 1 <<< i.toUInt64

/-- The words below the one that has its only one bit at place `k`. -/
def masks (k : ℕ) : List UInt64 := (List.range (bit k).toNat).map UInt64.ofNat

theorem toNat_bit {i : ℕ} (hi : i < 64) : (bit i).toNat = 2 ^ i := by
  have hplace : i.toUInt64.toNat % 64 = i := by
    rw [UInt64.toNat_ofNat_of_lt' (hi.trans (by decide)), Nat.mod_eq_of_lt hi]
  have hlt : 2 ^ i < 2 ^ 64 := Nat.pow_lt_pow_right Nat.one_lt_two hi
  rw [bit, UInt64.toNat_shiftLeft, hplace, UInt64.toNat_one, Nat.one_shiftLeft,
    Nat.mod_eq_of_lt hlt]

theorem and_bit_eq_zero_iff (mask : UInt64) {i : ℕ} (hi : i < 64) :
    mask &&& bit i = 0 ↔ mask.toNat.testBit i = false := by
  rw [← UInt64.toNat_inj, UInt64.toNat_and, toNat_bit hi, UInt64.toNat_zero, Nat.and_two_pow]
  cases mask.toNat.testBit i <;> simp

/-- The masks are the words of the numbers below a power of two, in order. -/
theorem map_toNat_masks {k : ℕ} (hk : k < 64) :
    (masks k).map UInt64.toNat = List.range (2 ^ k) := by
  have hpow : 2 ^ k < 2 ^ 64 := Nat.pow_lt_pow_right Nat.one_lt_two hk
  have hword : ∀ n ∈ List.range (2 ^ k), (UInt64.toNat ∘ UInt64.ofNat) n = id n := fun n hn =>
    UInt64.toNat_ofNat_of_lt' ((List.mem_range.1 hn).trans hpow)
  rw [masks, List.map_map, toNat_bit hk, List.map_congr_left hword, List.map_id]

namespace Case

variable {vars : List String}

/-! ## Numbers of cases -/

theorem getElem?_ofNumber (n i : ℕ) : (ofNumber vars n).cases[i]? =
    vars[i]?.map fun x => (x, if n.testBit i then .nonzero else .zero) := by
  rw [ofNumber, List.getElem?_map, List.getElem?_zipIdx, Option.map_map, Nat.zero_add]
  rfl

theorem eq_of_getElem? {c d : Case} (h : ∀ i : ℕ, c.cases[i]? = d.cases[i]?) : c = d :=
  congrArg mk (List.ext_getElem? h)

/-- Numbers below a power of two that give the same case are the same. -/
theorem eq_of_ofNumber_eq {m n : ℕ} (hm : m < 2 ^ vars.length) (hn : n < 2 ^ vars.length)
    (h : ofNumber vars m = ofNumber vars n) : m = n := by
  refine Nat.eq_of_testBit_eq fun i => ?_
  rcases lt_or_ge i vars.length with hi | hi
  · have hentry : (ofNumber vars m).cases[i]? = (ofNumber vars n).cases[i]? := by rw [h]
    rw [getElem?_ofNumber, getElem?_ofNumber, List.getElem?_eq_getElem hi] at hentry
    cases hm : m.testBit i <;> cases hn : n.testBit i <;> simp [hm, hn] at hentry ⊢
  · have hpow : 2 ^ vars.length ≤ 2 ^ i := Nat.pow_le_pow_right Nat.two_pos hi
    rw [Nat.testBit_lt_two_pow (hm.trans_le hpow), Nat.testBit_lt_two_pow (hn.trans_le hpow)]

/-- Every case has a number. -/
theorem exists_ofNumber_eq {c : Case} (hc : c.cases.map Prod.fst = vars) :
    ∃ n < 2 ^ vars.length, ofNumber vars n = c := by
  subst hc
  refine ⟨Nat.ofBits fun i : Fin (c.cases.map Prod.fst).length =>
    decide (c.cases[i]?.map Prod.snd = some .nonzero), Nat.ofBits_lt_two_pow _,
    eq_of_getElem? fun i => ?_⟩
  rw [getElem?_ofNumber, List.getElem?_map]
  cases hentry : c.cases[i]? with
  | none => rfl
  | some entry =>
    obtain ⟨x, a⟩ := entry
    obtain ⟨hi, -⟩ := List.getElem?_eq_some_iff.1 hentry
    rw [Option.map_some, Option.map_some, Nat.testBit_ofBits_lt _ i (by simpa using hi)]
    cases a <;> simp [hentry]

/-! ## Masks of cases -/

/-- The case that a mask tells: the variables at the places of its one bits are not zero. -/
def ofMask (vars : List String) (mask : UInt64) : Case :=
  ⟨vars.zipIdx.map fun v => (v.1, if mask &&& bit v.2 = 0 then .zero else .nonzero)⟩

theorem ofMask_eq_ofNumber (hvars : vars.length ≤ 64) (mask : UInt64) :
    ofMask vars mask = ofNumber vars mask.toNat := by
  rw [ofMask, ofNumber, mk.injEq]
  refine List.map_congr_left fun v hv => ?_
  have hplace : v.2 < 64 := by
    obtain ⟨hlt, -⟩ := List.getElem?_eq_some_iff.1 (List.mem_zipIdx_iff_getElem?.1 hv)
    omega
  have hbit := and_bit_eq_zero_iff mask hplace
  cases htest : mask.toNat.testBit v.2 <;> simp [hbit, htest]

/-- The masks give the cases of the numbers below a power of two, in order. -/
theorem map_ofMask_masks (hvars : vars.length < 64) : (masks vars.length).map (ofMask vars) =
    (List.range (2 ^ vars.length)).map (ofNumber vars) := by
  rw [← map_toNat_masks hvars, List.map_map]
  exact List.map_congr_left fun mask _ => ofMask_eq_ofNumber hvars.le mask

/-- No case is met twice. -/
theorem nodup_map_ofMask_masks (hvars : vars.length < 64) :
    ((masks vars.length).map (ofMask vars)).Nodup := by
  rw [map_ofMask_masks hvars]
  refine List.Nodup.map_on (fun m hm n hn h => ?_) List.nodup_range
  exact eq_of_ofNumber_eq (List.mem_range.1 hm) (List.mem_range.1 hn) h

/-- No case is left out. -/
theorem mem_map_ofMask_masks_iff (hvars : vars.length < 64) {c : Case} :
    c ∈ (masks vars.length).map (ofMask vars) ↔ c.cases.map Prod.fst = vars := by
  rw [map_ofMask_masks hvars, List.mem_map]
  constructor
  · rintro ⟨n, -, rfl⟩
    exact map_fst_ofNumber vars n
  · intro hc
    obtain ⟨n, hn, rfl⟩ := exists_ofNumber_eq hc
    exact ⟨n, List.mem_range.2 hn, rfl⟩

/-! ## The case at a valuation -/

section Fits

variable {K : Type u} [Field K] {v : String → K}

open Classical in
/-- A case that fits at a valuation says of each of its variables what is true there. -/
theorem Fits.cases_eq {c : Case} (h : c.Fits v) : c.cases =
    (c.cases.map Prod.fst).map fun x => (x, if v x = 0 then .zero else .nonzero) := by
  have hentry : ∀ e ∈ c.cases, e = (e.1, if v e.1 = 0 then .zero else .nonzero) := by
    rintro ⟨x, a⟩ he
    have hx := h _ he
    cases a <;> simp [hx]
  rw [List.map_map]
  exact (List.map_id _).symm.trans (List.map_congr_left hentry)

/-- Two cases of the same variables that fit at one valuation are the same. -/
theorem Fits.eq {c d : Case} (hc : c.Fits v) (hd : d.Fits v)
    (h : c.cases.map Prod.fst = d.cases.map Prod.fst) : c = d := by
  refine congrArg mk (?_ : c.cases = d.cases)
  rw [hc.cases_eq, hd.cases_eq, h]

/-- At every valuation the assumptions of one case hold, and only of one mask. -/
theorem existsUnique_holds_ofMask [CharZero K] (hvars : vars.length < 64) (v : String → K) :
    ∃! mask, mask ∈ masks vars.length ∧ (ofMask vars mask).assumptions.Holds v := by
  obtain ⟨n, hn, hfits⟩ := exists_fits v vars
  have hmem : ofNumber vars n ∈ (masks vars.length).map (ofMask vars) :=
    (mem_map_ofMask_masks_iff hvars).2 (map_fst_ofNumber vars n)
  obtain ⟨mask, hmask, hcase⟩ := List.mem_map.1 hmem
  refine ⟨mask, ⟨hmask, holds_assumptions_iff.2 (hcase ▸ hfits)⟩, fun mask' h => ?_⟩
  obtain ⟨hmask', hholds⟩ := h
  have hsame : ofMask vars mask' = ofMask vars mask := by
    refine (holds_assumptions_iff.1 hholds).eq (hcase ▸ hfits) ?_
    rw [ofMask_eq_ofNumber hvars.le, ofMask_eq_ofNumber hvars.le, map_fst_ofNumber,
      map_fst_ofNumber]
  exact List.inj_on_of_nodup_map (nodup_map_ofMask_masks hvars) hmask' hmask hsame

end Fits

end Case

/-! ## Decisions -/

namespace Form

/-- Look through a list of cases for the first one in which something is left. -/
def search (f : Form) (cases : List Case) : Decision :=
  match cases.find? fun c => !(f.eval c.assumptions).isZero with
  | none => .proven
  | some c => .refuted c (f.eval c.assumptions)

variable {f : Form}

theorem search_eq_proven_iff {cases : List Case} :
    f.search cases = .proven ↔ ∀ c ∈ cases, f.eval c.assumptions = zero := by
  have hzero : (∀ c ∈ cases, f.eval c.assumptions = zero) ↔
      cases.find? (fun c => !(f.eval c.assumptions).isZero) = none := by
    simp only [List.find?_eq_none, Bool.not_eq_true', Bool.not_eq_false, isZero_iff]
  rw [hzero, search]
  split <;> simp [*]

theorem decideFrom_eq_search (vars : List String) (remaining n : ℕ) :
    f.decideFrom vars remaining n =
      f.search ((List.range' n remaining).map (Case.ofNumber vars)) := by
  induction remaining generalizing n with
  | zero => rfl
  | succ remaining ih =>
    rw [decideFrom, List.range'_succ, List.map_cons, search, List.find?_cons]
    cases hzero : (f.eval (Case.ofNumber vars n).assumptions).isZero with
    | true => exact ih (n + 1)
    | false => rfl

/-- A decision looks through the cases of the masks, in the order of the masks. -/
theorem decide_eq_search {limit : ℕ} (hlimit : f.vars.length ≤ limit)
    (hvars : f.vars.length < 64) :
    f.decide limit = .ok (f.search ((masks f.vars.length).map (Case.ofMask f.vars))) := by
  rw [decide, if_neg hlimit.not_gt, decideFrom_eq_search, Case.map_ofMask_masks hvars,
    List.range_eq_range', Nat.pow_eq]

end Form

/-! ## Limits -/

/-- Whatever is set on a command line and in a configuration, there are fewer variables than
bits in a word, and a decision looks through each case of the variables exactly once. -/
theorem caseSplit_exhaustive {args : List String} {files : Files} {o : Options} {c : Config}
    (hargs : Options.ofArguments args = .ok o) (hconfig : Job.config files o.config = .ok c)
    (terminal : Bool) :
    let limit := (Settings.merge o c terminal).maxVariables
    (1 ≤ limit ∧ limit ≤ 30) ∧ ∀ f : Form, f.vars.length ≤ limit →
      let cases := (masks f.vars.length).map (Case.ofMask f.vars)
      f.vars.length < 64 ∧ (bit f.vars.length).toNat = 2 ^ f.vars.length ∧
        (masks f.vars.length).map UInt64.toNat = List.range (2 ^ f.vars.length) ∧
        f.vars.Nodup ∧ cases.Nodup ∧ (∀ c, c ∈ cases ↔ c.cases.map Prod.fst = f.vars) ∧
        f.decide limit = .ok (f.search cases) ∧
        (f.decide limit = .ok .proven ↔
          ∀ c : Case, c.cases.map Prod.fst = f.vars → f.eval c.assumptions = Form.zero) ∧
        ∀ (K : Type u) [Field K] [CharZero K] (v : String → K),
          ∃! mask, mask ∈ masks f.vars.length ∧ (Case.ofMask f.vars mask).assumptions.Holds v := by
  intro limit
  have hrange : VariableLimit.InRange limit :=
    Settings.limit_inRange (Options.inRange_of_ofArguments hargs)
      (Job.inRange_of_config hconfig) terminal
  refine ⟨hrange, fun f hf => ?_⟩
  have hvars : f.vars.length < 64 := (hf.trans hrange.2).trans_lt (by decide)
  have hdecide := Form.decide_eq_search hf hvars
  refine ⟨hvars, toNat_bit hvars, map_toNat_masks hvars, FinSupp.nodup_keys _,
    Case.nodup_map_ofMask_masks hvars, fun c => Case.mem_map_ofMask_masks_iff hvars, hdecide, ?_,
    fun K _ _ v => Case.existsUnique_holds_ofMask hvars v⟩
  rw [hdecide, Except.ok.injEq, Form.search_eq_proven_iff]
  simp only [Case.mem_map_ofMask_masks_iff hvars]

/-- The difference of two variables is left in one of their cases, and where only the second
is not zero, the assumptions of one of their masks hold. -/
theorem caseSplit_exhaustive_two :
    let files : Files := fun _ => .ok "max_variables = 2"
    let o : Options := { Options.empty with maxVariables := some 3 }
    let config : Config := { Config.empty with maxVariables := some 2 }
    let f : Form := .poly ((Poly.var "x").sub (.var "y"))
    let v : String → ℚ := fun w => if w = "y" then 1 else 0
    Options.ofArguments ["--max-variables=3"] = .ok o ∧ Job.config files o.config = .ok config ∧
      f.vars = ["x", "y"] ∧
      (∃ c : Case, c.cases.map Prod.fst = f.vars ∧ f.eval c.assumptions ≠ Form.zero) ∧
      ∃! mask, mask ∈ masks f.vars.length ∧ (Case.ofMask f.vars mask).assumptions.Holds v := by
  intro files o config f v
  have hargs : Options.ofArguments ["--max-variables=3"] = .ok o := by decide +kernel
  have hconfig : Job.config files o.config = .ok config := by decide +kernel
  have hvars : f.vars = ["x", "y"] := by decide +kernel
  obtain ⟨-, hcases⟩ := caseSplit_exhaustive hargs hconfig false
  obtain ⟨-, -, -, -, -, -, -, hproven, hunique⟩ := hcases f (by rw [hvars]; decide)
  have hrefuted : f.decide 3 ≠ .ok .proven := by decide +kernel
  have hleft : ∃ c : Case, c.cases.map Prod.fst = f.vars ∧ f.eval c.assumptions ≠ Form.zero := by
    by_contra hnone
    push Not at hnone
    exact hrefuted (hproven.2 hnone)
  exact ⟨hargs, hconfig, hvars, hleft, hunique ℚ v⟩

end Meadow
