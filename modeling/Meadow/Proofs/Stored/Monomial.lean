import Mathlib
import Meadow.Proofs.Monomial.Order
import Meadow.Proofs.Stored.Machine
import Meadow.Proofs.Stored.Related
import Meadow.Poly.Text
import Meadow.Stored.Monomial

set_option autoImplicit false

/-!
# What stored monomials represent

A stored monomial represents the monomial with the same powers, if there is one: the names
have to be in order, and no exponent may be zero.  Every operation on stored monomials does
what the operation of the same name does on what they represent, as long as no exponent
overflows.  So the lexicographic order of stored monomials is admissible up to an overflow
(`Stored.Monomial.lexCmp_laws`); where one occurs, it is not (`Stored.Monomial.mul_wraps`).
-/

namespace Meadow

open Machine (Ensures Returns Overflows)

namespace Monomial

/-- Multiplying by powers of different names adds their exponents. -/
theorem exponent_foldl_mul_power {ps : List (String × ℕ)} (hs : Entries.Sorted compare ps)
    (m : Monomial) (v : String) :
    (ps.foldl (fun m p => m.mul (power p.1 p.2)) m).exponent v
      = m.exponent v + Entries.get 0 v ps := by
  induction ps generalizing m with
  | nil => rfl
  | cons p ps ih =>
    rw [List.foldl_cons, ih (List.pairwise_cons.1 hs).2, exponent_mul, exponent_power,
      Entries.get]
    by_cases hp : p.1 = v
    · have htail := get_head_tail hs
      rw [hp] at htail
      rw [if_pos hp, if_pos hp, htail, Nat.add_zero]
    · rw [if_neg hp, if_neg hp, Nat.add_zero]

/-- A product is formed by multiplying by one power after the other. -/
theorem foldl_mul_power (m n : Monomial) :
    n.powers.foldl (fun m p => m.mul (power p.1 p.2)) m = m.mul n :=
  ext_exponent fun v =>
    (exponent_foldl_mul_power n.exponents.sorted m v).trans (exponent_mul m n v).symm

theorem exponent_le_foldl_mul_power (ps : List (String × ℕ)) (m : Monomial) (v : String) :
    m.exponent v ≤ (ps.foldl (fun m p => m.mul (power p.1 p.2)) m).exponent v := by
  induction ps generalizing m with
  | nil => exact le_rfl
  | cons p ps ih =>
    refine le_trans ?_ (ih (m.mul (power p.1 p.2)))
    rw [exponent_mul]
    exact Nat.le_add_right _ _

theorem powers_power (v : String) {e : ℕ} (he : e ≠ 0) : (power v e).powers = [(v, e)] := by
  rw [powers, power, FinSupp.single, dif_neg he]

end Monomial

namespace Stored.Monomial

/-! ## Representation -/

/-- The stored monomial has the powers of the monomial. -/
def Represents (s : Monomial) (m : Meadow.Monomial) : Prop := s.numbers = m.powers

instance (s : Monomial) (m : Meadow.Monomial) : Decidable (s.Represents m) :=
  inferInstanceAs (Decidable (s.numbers = m.powers))

/-- The word is the number. -/
def WordRel (w : UInt32) (k : ℕ) : Prop := w.toNat = k

theorem WordRel.eq_zero_iff {w : UInt32} {k : ℕ} (h : WordRel w k) : w = 0 ↔ k = 0 := by
  rw [← show w.toNat = k from h, ← UInt32.toNat_inj]
  rfl

theorem WordRel.eq_iff {w w' : UInt32} {k k' : ℕ} (h : WordRel w k) (h' : WordRel w' k') :
    w = w' ↔ k = k' := by
  rw [← show w.toNat = k from h, ← show w'.toNat = k' from h', UInt32.toNat_inj]

theorem WordRel.le_iff {w w' : UInt32} {k k' : ℕ} (h : WordRel w k) (h' : WordRel w' k') :
    w ≤ w' ↔ k ≤ k' := by
  rw [← show w.toNat = k from h, ← show w'.toNat = k' from h', UInt32.le_iff_toNat_le]

theorem WordRel.lt_iff {w w' : UInt32} {k k' : ℕ} (h : WordRel w k) (h' : WordRel w' k') :
    w < w' ↔ k < k' := by
  rw [← show w.toNat = k from h, ← show w'.toNat = k' from h', UInt32.lt_iff_toNat_lt]

theorem WordRel.sub {w w' : UInt32} {k k' : ℕ} (h : WordRel w k) (h' : WordRel w' k')
    (hle : k' ≤ k) : WordRel (w - w') (k - k') := by
  rw [WordRel, UInt32.toNat_sub_of_le _ _ ((h'.le_iff h).2 hle)]
  exact congrArg₂ (· - ·) h h'

theorem WordRel.min {w w' : UInt32} {k k' : ℕ} (h : WordRel w k) (h' : WordRel w' k') :
    WordRel (min w w') (min k k') := by
  change WordRel (if w ≤ w' then w else w') (if k ≤ k' then k else k')
  exact rel_ite (R := WordRel) (h.le_iff h') h h'

theorem WordRel.max {w w' : UInt32} {k k' : ℕ} (h : WordRel w k) (h' : WordRel w' k') :
    WordRel (max w w') (max k k') := by
  change WordRel (if w ≤ w' then w' else w) (if k ≤ k' then k' else k)
  exact rel_ite (R := WordRel) (h.le_iff h') h' h

variable {s t : Monomial} {m n : Meadow.Monomial}

/-- Names and exponents agree, power by power. -/
theorem represents_iff :
    s.Represents m ↔ List.Forall₂ (EntryRel (· = ·) WordRel) s.powers m.powers := by
  have hpower : EntryRel (· = ·) WordRel = fun (p : String × UInt32) q => Power.number p = q := by
    funext p q
    rw [EntryRel, Power.number, Prod.ext_iff]
    rfl
  rw [hpower, ← List.forall₂_map_left_iff (f := Power.number) (R := fun p q => p = q),
    List.forall₂_eq_eq_eq]
  rfl

/-- Stored monomials are equal exactly if they represent equal monomials. -/
theorem Represents.eq_iff (hs : s.Represents m) (ht : t.Represents n) : s = t ↔ m = n := by
  constructor
  · rintro rfl
    exact Meadow.Monomial.ext_powers (hs.symm.trans ht)
  · rintro rfl
    exact numbers_injective (hs.trans ht.symm)

theorem represents_one : one.Represents .one := rfl

theorem represents_power (v : String) {w : UInt32} {k : ℕ} (h : WordRel w k) :
    (power v w).Represents (.power v k) := by
  unfold power
  by_cases hk : k = 0
  · rw [if_pos (h.eq_zero_iff.2 hk), hk]
    exact represents_one
  · rw [if_neg (mt h.eq_zero_iff.1 hk), Represents, Meadow.Monomial.powers_power v hk, ← h]
    rfl

theorem Represents.isOne (h : s.Represents m) : s.isOne = m.isOne := by
  rw [Monomial.isOne, Meadow.Monomial.isOne, FinSupp.isEmpty, ← Meadow.Monomial.powers, ← h,
    numbers, List.isEmpty_map]

theorem Represents.exponent (h : s.Represents m) (v : String) :
    WordRel (s.exponent v) (m.exponent v) :=
  Entries.rel_get (R := (· = ·)) (S := WordRel) (fun h h' => by rw [h, h']) rfl rfl
    (represents_iff.1 h)

theorem Represents.names (h : s.Represents m) : s.names = m.vars := by
  rw [Meadow.Monomial.vars, FinSupp.keys, ← Meadow.Monomial.powers, ← h, numbers, List.map_map]
  rfl

/-! ## Degrees and products -/

theorem ensures_add {w w' : UInt32} {k k' : ℕ} (h : WordRel w k) (h' : WordRel w' k') :
    Ensures (Machine.add w w') (WordRel · (k + k')) :=
  (Machine.ensures_add w w').mono fun c hc => by rw [WordRel, hc, h, h']

theorem Represents.degree (h : s.Represents m) : Ensures s.degree (WordRel · m.degree) := by
  have hsum (ps : List (String × ℕ)) (a : ℕ) :
      ps.foldl (fun d p => d + p.2) a = a + ps.foldr (fun p d => p.2 + d) 0 := by
    induction ps generalizing a with
    | nil => rfl
    | cons p ps ih => rw [List.foldl_cons, ih, List.foldr_cons, Nat.add_assoc]
  have hfold := Ensures.foldlM (S := WordRel) (g := fun d p => d + p.2)
    (f := fun d (p : String × UInt32) => Machine.add d p.2)
    (fun hd hp => ensures_add hd hp.2) (represents_iff.1 h) (show WordRel 0 0 from rfl)
  rw [hsum, Nat.zero_add] at hfold
  exact hfold

/-- One more power is merged into the others. -/
theorem ensures_mulPower (v : String) {e : UInt32} (he : e ≠ 0) (ps : List (String × UInt32)) :
    Ensures (mulPower v e ps) fun qs => qs.map Power.number
      = Entries.merge compare 0 (· + ·) (ps.map Power.number) [(v, e.toNat)] := by
  induction ps with
  | nil => exact Machine.ensures_pure rfl
  | cons p ps ih =>
    rw [mulPower, List.map_cons, Entries.merge, Entries.mergeInto, Entries.mergeInto,
      Entries.merge_nil]
    cases hcmp : compare p.1 v with
    | lt =>
      refine ih.map fun qs hqs => ?_
      rw [List.map_cons, hqs]
      simp only [Power.number, hcmp]
    | eq =>
      refine (Machine.ensures_add p.2 e).map fun c hc => ?_
      have he' : e.toNat ≠ 0 := mt (WordRel.eq_zero_iff rfl).2 he
      have hne : p.2.toNat + e.toNat ≠ 0 := fun h0 => he' (Nat.add_eq_zero_iff.1 h0).2
      have hcons : Entries.consNonzero 0 p.1 (p.2.toNat + e.toNat) (ps.map Power.number)
          = (p.1, p.2.toNat + e.toNat) :: ps.map Power.number := if_neg hne
      simp only [List.map_cons, Power.number, hcmp, hc]
      exact hcons.symm
    | gt =>
      refine Machine.ensures_pure ?_
      simp only [List.map_cons, Power.number, hcmp]

/-- The exponents that are stored are not zero. -/
theorem Represents.ne_zero_of_mem (h : s.Represents m) {p : String × UInt32}
    (hp : p ∈ s.powers) : p.2 ≠ 0 := by
  have hmem : Power.number p ∈ m.powers := by
    rw [← h]
    exact List.mem_map_of_mem hp
  exact mt (WordRel.eq_zero_iff rfl).1 (m.exponents.nonzero _ hmem)

theorem Represents.mulPower (h : s.Represents m) (v : String) {e : UInt32} (he : e ≠ 0) :
    Ensures (mulPower v e s.powers) fun qs =>
      (⟨qs⟩ : Monomial).Represents (m.mul (.power v e.toNat)) := by
  refine (ensures_mulPower v he s.powers).mono fun qs hqs => ?_
  have hpower := Meadow.Monomial.powers_power v (mt (WordRel.eq_zero_iff rfl).2 he)
  change qs.map Power.number
    = Entries.merge compare 0 (· + ·) m.powers (Meadow.Monomial.power v e.toNat).powers
  rw [hqs, hpower, ← h]
  rfl

theorem Represents.mul (hs : s.Represents m) (ht : t.Represents n) :
    Ensures (s.mul t) (·.Represents (m.mul n)) := by
  have hpowers : List.Forall₂ (fun (p : String × UInt32) q => Power.number p = q ∧ p.2 ≠ 0)
      t.powers n.powers := by
    rw [← show t.numbers = n.powers from ht, numbers, List.forall₂_map_right_iff,
      List.forall₂_same]
    exact fun p hp => ⟨rfl, ht.ne_zero_of_mem hp⟩
  have hfold := Ensures.foldlM (S := fun ps (k : Meadow.Monomial) => (⟨ps⟩ : Monomial).Represents k)
    (g := fun k q => k.mul (.power q.1 q.2)) (f := fun ps p => Monomial.mulPower p.1 p.2 ps)
    (fun hps hpq => hpq.1 ▸ hps.mulPower _ hpq.2) hpowers hs
  rw [Meadow.Monomial.foldl_mul_power] at hfold
  exact hfold.map fun ps hps => hps

/-! ## Products that fit -/

theorem exists_returns_mulPower (v : String) (e : UInt32) (ps : List (String × UInt32))
    (h : ∀ p ∈ ps, p.1 = v → p.2.toNat + e.toNat < UInt32.size) :
    ∃ qs, Returns (mulPower v e ps) qs := by
  induction ps with
  | nil => exact ⟨_, Machine.returns_pure _⟩
  | cons p ps ih =>
    obtain ⟨hp, hps⟩ := List.forall_mem_cons.1 h
    rw [mulPower]
    cases hcmp : compare p.1 v with
    | lt =>
      obtain ⟨qs, hqs⟩ := ih hps
      exact ⟨_, hqs.bind (Machine.returns_pure _)⟩
    | eq =>
      have hadd := Machine.returns_add (hp (Std.LawfulEqCmp.eq_of_compare hcmp))
      exact ⟨_, hadd.bind (Machine.returns_pure _)⟩
    | gt => exact ⟨_, Machine.returns_pure _⟩

/-- A stored power of a variable is its exponent. -/
theorem Represents.toNat_of_mem (h : s.Represents m) {p : String × UInt32} (hp : p ∈ s.powers) :
    p.2.toNat = m.exponent p.1 := by
  have hmem : Power.number p ∈ m.powers := by
    rw [← h]
    exact List.mem_map_of_mem hp
  exact (FinSupp.mem_entries_iff.1 hmem).1.symm

/-- Powers are multiplied without an overflow if their product can be stored. -/
theorem Represents.exists_returns_foldlM (h : s.Represents m) (ps : List (String × UInt32))
    (hps : ∀ p ∈ ps, p.2 ≠ 0)
    (hfits : ∀ v, ((ps.map Power.number).foldl (fun m p => m.mul (.power p.1 p.2)) m).exponent v
      < UInt32.size) :
    ∃ qs, Returns (ps.foldlM (fun qs p => Monomial.mulPower p.1 p.2 qs) s.powers) qs := by
  induction ps generalizing s m with
  | nil => exact ⟨_, Machine.returns_pure _⟩
  | cons p ps ih =>
    obtain ⟨hp, hps⟩ := List.forall_mem_cons.1 hps
    rw [List.map_cons] at hfits
    obtain ⟨qs, hqs⟩ := exists_returns_mulPower p.1 p.2 s.powers fun r hr hname => by
      have hle := (Meadow.Monomial.exponent_le_foldl_mul_power (ps.map Power.number)
        (m.mul (.power p.1 p.2.toNat)) p.1).trans_lt (hfits p.1)
      rwa [Meadow.Monomial.exponent_mul, Meadow.Monomial.exponent_power, if_pos rfl, ← hname,
        ← h.toNat_of_mem hr] at hle
    obtain ⟨rs, hrs⟩ := ih ((h.mulPower p.1 hp).of_returns hqs) hps hfits
    exact ⟨rs, hqs.bind hrs⟩

/-- A product that can be stored is found. -/
theorem Represents.returns_mul {u : Monomial} (hs : s.Represents m) (ht : t.Represents n)
    (hu : u.Represents (m.mul n)) : Returns (s.mul t) u := by
  obtain ⟨qs, hqs⟩ := hs.exists_returns_foldlM t.powers
    (fun p hp => ht.ne_zero_of_mem hp) fun v => by
      rw [← numbers, show t.numbers = n.powers from ht, Meadow.Monomial.foldl_mul_power,
        ← hu.exponent v]
      exact (u.exponent v).toNat_lt
  have hmul : Returns (s.mul t) ⟨qs⟩ := hqs.bind (Machine.returns_pure _)
  rwa [((hs.mul ht).of_returns hmul).eq_iff hu |>.2 rfl] at hmul

/-! ## Divisors -/

/-- Changing exponents in the same way keeps what is represented. -/
theorem Represents.mapVals {f : String → UInt32 → UInt32} {g : String → ℕ → ℕ}
    (hfg : ∀ {v w}, WordRel w (m.exponent v) → WordRel (f v w) (g v (m.exponent v)))
    (h : s.Represents m) :
    (⟨Entries.mapVals 0 f s.powers⟩ : Monomial).Represents ⟨m.exponents.mapVals g⟩ := by
  refine represents_iff.2 (Entries.rel_mapVals (R := fun v w : String => v = w) (S := WordRel)
    WordRel.eq_zero_iff (fun {v w p} hp hv hw => ?_) (represents_iff.1 h))
  have hexp : m.exponent p.1 = p.2 := (FinSupp.mem_entries_iff.1 hp).1
  rw [hv, ← hexp]
  exact hfg (hexp ▸ hw)

theorem Represents.gcd (hs : s.Represents m) (ht : t.Represents n) :
    (s.gcd t).Represents (m.gcd n) :=
  hs.mapVals (g := fun v e => min e (n.exponent v)) fun hw => hw.min (ht.exponent _)

theorem Represents.without (h : s.Represents m) (v : String) :
    (s.without v).Represents (m.without v) :=
  represents_iff.2 (rel_filter (fun hp => by rw [hp.1]) (represents_iff.1 h))

theorem Represents.divide? (hs : s.Represents m) (ht : t.Represents n) :
    Option.Rel Represents (s.divide? t) (m.divide? n) := by
  have hdivides : (t.powers.all fun p => decide (p.2 ≤ s.exponent p.1)) = n.divides m :=
    rel_all (fun hp => decide_eq_decide.2 (hp.2.le_iff (hp.1 ▸ hs.exponent _)))
      (represents_iff.1 ht)
  unfold Monomial.divide? Meadow.Monomial.divide?
  rw [hdivides]
  split
  · next hdvd =>
    refine .some (hs.mapVals (g := fun v e => e - n.exponent v) fun {v _} hw => ?_)
    exact hw.sub (ht.exponent v) (Meadow.Monomial.divides_iff.1 hdvd v)
  · exact .none

/-! ## The orders and the text -/

theorem Represents.lexCmp (hs : s.Represents m) (ht : t.Represents n) :
    s.lexCmp t = m.lexCmp n := by
  rw [lexCmp_numbers, hs, ht]
  rfl

theorem Represents.cmp (hs : s.Represents m) (ht : t.Represents n) : s.cmp t = m.cmp n := by
  rw [cmp_numbers, hs, ht]
  rfl

theorem Represents.render (h : s.Represents m) : s.render = m.render := by
  rw [Monomial.render, Meadow.Monomial.render, ← h, numbers, List.map_map]
  refine congrArg ("*".intercalate ·) (List.map_congr_left fun p _ => ?_)
  have hone : p.2 = 1 ↔ p.2.toNat = 1 := WordRel.eq_iff (w := p.2) rfl rfl
  change renderPower p = if p.2.toNat = 1 then p.1 else p.1 ++ "**" ++ toString p.2.toNat
  exact if_congr hone rfl rfl

/-! ## Proper monomials -/

/-- The names are in order, and no exponent is zero. -/
structure Proper (s : Monomial) : Prop where
  sorted : Entries.Sorted compare s.powers
  nonzero : Entries.Nonzero 0 s.powers

/-- The stored monomials that represent one are the proper ones. -/
theorem proper_iff : s.Proper ↔ ∃ m, s.Represents m := by
  constructor
  · rintro ⟨hsorted, hnonzero⟩
    refine ⟨⟨⟨s.numbers, List.pairwise_map.2 hsorted, fun p hp => ?_⟩⟩, rfl⟩
    obtain ⟨q, hq, rfl⟩ := List.mem_map.1 hp
    exact mt (WordRel.eq_zero_iff rfl).2 (hnonzero q hq)
  · rintro ⟨m, h⟩
    have hsorted : Entries.Sorted compare s.numbers := by
      rw [h]
      exact m.exponents.sorted
    exact ⟨List.pairwise_map.1 hsorted, fun p hp => h.ne_zero_of_mem hp⟩

/-- A divisor, by a product that does not overflow. -/
def Divides (d s : Monomial) : Prop := ∃ q : Monomial, q.Proper ∧ Returns (q.mul d) s

/-- What divides a monomial that is stored can be stored. -/
theorem exists_represents_of_mul (hs : s.Represents (m.mul n)) :
    ∃ t : Monomial, t.Represents m := by
  refine ⟨⟨m.powers.map fun p => (p.1, UInt32.ofNat p.2)⟩, ?_⟩
  rw [Represents, numbers, List.map_map]
  refine (List.map_congr_left fun p hp => ?_).trans (List.map_id _)
  have hexp : m.exponent p.1 = p.2 := (FinSupp.mem_entries_iff.1 hp).1
  have hlt : p.2 < UInt32.size := by
    have hle := (s.exponent p.1).toNat_lt
    rw [show (s.exponent p.1).toNat = _ from hs.exponent p.1, Meadow.Monomial.exponent_mul,
      hexp] at hle
    exact lt_of_le_of_lt (Nat.le_add_right _ _) hle
  exact Prod.ext rfl (UInt32.toNat_ofNat_of_lt' hlt)

theorem divides_iff {d : Monomial} {k : Meadow.Monomial} (hd : d.Represents k)
    (hs : s.Represents m) : d.Divides s ↔ k ∣ m := by
  constructor
  · rintro ⟨q, hq, hmul⟩
    obtain ⟨l, hl⟩ := proper_iff.1 hq
    exact ⟨l, (hs.eq_iff ((hl.mul hd).of_returns hmul)).1 rfl⟩
  · rintro ⟨l, rfl⟩
    obtain ⟨q, hq⟩ := exists_represents_of_mul hs
    exact ⟨q, proper_iff.2 ⟨l, hq⟩, hq.returns_mul hd hs⟩

/-! ## The laws of the order -/

/-- Multiplication keeps the order of two monomials, as long as no exponent overflows. -/
theorem Represents.lexCmp_mul_right {u : Monomial} {k : Meadow.Monomial} (hs : s.Represents m)
    (ht : t.Represents n) (hu : u.Represents k) :
    Ensures (do return (← s.mul u).lexCmp (← t.mul u)) (· = s.lexCmp t) :=
  (hs.mul hu).bind fun _ hsu => (ht.mul hu).map fun _ htu => by
    rw [hsu.lexCmp htu, hs.lexCmp ht, Meadow.Monomial.lexCmp_mul_right]

/-- Over finitely many names, proper monomials do not descend at every step. -/
theorem exists_lexCmp_ne_lt (vs : List String) (ms : ℕ → Monomial)
    (h : ∀ i, (ms i).Proper ∧ (ms i).names ⊆ vs) : ∃ i, (ms (i + 1)).lexCmp (ms i) ≠ .lt := by
  choose ks hks using fun i => proper_iff.1 (h i).1
  have hover (i : ℕ) : (ks i).Over vs := fun x hx => by
    have hnot : x ∉ (ks i).vars := fun hmem => hx ((h i).2 (by rwa [(hks i).names]))
    exact Nat.eq_zero_of_not_pos (mt Meadow.Monomial.mem_vars_iff.2 hnot)
  obtain ⟨i, hi⟩ := Meadow.Monomial.exists_lexCmp_ne_lt vs ks hover
  exact ⟨i, by rwa [(hks (i + 1)).lexCmp (hks i)]⟩

theorem Represents.divide?_eq_some_iff {q : Monomial} (hs : s.Represents m)
    (ht : t.Represents n) : s.divide? t = some q ↔ q.Proper ∧ Returns (q.mul t) s := by
  have hrel := hs.divide? ht
  constructor
  · intro hq
    rw [hq] at hrel
    generalize hdiv : m.divide? n = k at hrel
    cases hrel with
    | some hk =>
      have hmul := Meadow.Monomial.divide?_eq_some_iff.1 hdiv
      rw [Meadow.Monomial.mul_comm] at hmul
      exact ⟨proper_iff.2 ⟨_, hk⟩, hk.returns_mul ht (hmul ▸ hs)⟩
  · rintro ⟨hproper, hmul⟩
    obtain ⟨k, hk⟩ := proper_iff.1 hproper
    have hm : m = n.mul k := by
      rw [Meadow.Monomial.mul_comm]
      exact (hs.eq_iff ((hk.mul ht).of_returns hmul)).1 rfl
    rw [Meadow.Monomial.divide?_eq_some_iff.2 hm] at hrel
    generalize hdiv : s.divide? t = r at hrel
    cases hrel with
    | some hr => rw [(hr.eq_iff hk).2 rfl]

/-- The lexicographic order of the proper stored monomials is admissible, a quotient is what the
divisor has to be multiplied by, and the greatest common divisor is a common divisor that all
others divide and that is not below any of them; all of this as long as no exponent overflows. -/
theorem lexCmp_laws {s t u : Monomial} (hs : s.Proper) (ht : t.Proper) (hu : u.Proper) :
    (Std.TransCmp lexCmp ∧ Std.LawfulEqCmp lexCmp) ∧ (one.lexCmp s).isLE ∧
    Ensures (do return (← s.mul u).lexCmp (← t.mul u)) (· = s.lexCmp t) ∧
    (∀ (vs : List String) (ms : ℕ → Monomial), (∀ i, (ms i).Proper ∧ (ms i).names ⊆ vs) →
      ∃ i, (ms (i + 1)).lexCmp (ms i) ≠ .lt) ∧
    (∀ q : Monomial, s.divide? t = some q ↔ q.Proper ∧ Returns (q.mul t) s) ∧
    Ensures (s.mul t) (fun p => p.Proper ∧ p.divide? t = some s) ∧
    (s.gcd t).Proper ∧ (s.gcd t).Divides s ∧ (s.gcd t).Divides t ∧
    ∀ d : Monomial, d.Proper → d.Divides s → d.Divides t →
      d.Divides (s.gcd t) ∧ (d.lexCmp (s.gcd t)).isLE := by
  obtain ⟨m, hm⟩ := proper_iff.1 hs
  obtain ⟨n, hn⟩ := proper_iff.1 ht
  obtain ⟨k, hk⟩ := proper_iff.1 hu
  have hone : (one.lexCmp s).isLE := by
    change (List.compareLex Power.lexCmp [] s.powers).isLE
    cases s.powers <;> rfl
  have hmul : Ensures (s.mul t) fun p => p.Proper ∧ p.divide? t = some s :=
    (hm.mul hn).mono fun p hp => ⟨proper_iff.2 ⟨_, hp⟩,
      (hp.divide?_eq_some_iff hn).2 ⟨hs, hm.returns_mul hn hp⟩⟩
  have hgcd := hm.gcd hn
  obtain ⟨hleft, hright⟩ := Meadow.Monomial.dvd_gcd_iff.1
    (Meadow.Monomial.dvd_iff_exponent.2 fun _ => le_rfl : m.gcd n ∣ m.gcd n)
  refine ⟨⟨inferInstance, inferInstance⟩, hone, hm.lexCmp_mul_right hn hk, exists_lexCmp_ne_lt,
    fun q => hm.divide?_eq_some_iff hn, hmul, proper_iff.2 ⟨_, hgcd⟩,
    (divides_iff hgcd hm).2 hleft, (divides_iff hgcd hn).2 hright, fun d hd hds hdt => ?_⟩
  obtain ⟨e, he⟩ := proper_iff.1 hd
  have hdvd := Meadow.Monomial.dvd_gcd_iff.2
    ⟨(divides_iff he hm).1 hds, (divides_iff he hn).1 hdt⟩
  refine ⟨(divides_iff he hgcd).2 hdvd, ?_⟩
  rw [he.lexCmp hgcd]
  exact Meadow.Monomial.admissible_lexCmp.isLE_of_dvd hdvd

/-- The product of `x y²` and `x` is no overflow, its quotient by `x` is `x y²` again, and `x` is
the greatest of the common divisors of `x y²` and `x`. -/
theorem lexCmp_laws_powers :
    let s : Monomial := ⟨[("x", 1), ("y", 2)]⟩
    let t := power "x" 1
    s.Proper ∧ t.Proper ∧ Returns (s.mul t) ⟨[("x", 2), ("y", 2)]⟩ ∧
      (⟨[("x", 2), ("y", 2)]⟩ : Monomial).divide? t = some s ∧ s.gcd t = t ∧ t.Divides s ∧
      (t.lexCmp (s.gcd t)).isLE := by
  intro s t
  have hs : s.Proper := ⟨List.pairwise_pair.2 rfl, by simp [s, Entries.Nonzero]⟩
  have ht : t.Proper := proper_iff.2 ⟨_, represents_power "x" rfl⟩
  obtain ⟨-, -, -, -, -, hmul, -, hleft, hright, hgreatest⟩ := lexCmp_laws hs ht hs
  have hreturns : Returns (s.mul t) ⟨[("x", 2), ("y", 2)]⟩ := fun build => by
    cases build <;> rfl
  have heq : s.gcd t = t := by decide +kernel
  have hself := hgreatest t ht (heq ▸ hleft) (heq ▸ hright)
  exact ⟨hs, ht, hreturns, (hmul.of_returns hreturns).2, heq, heq ▸ hleft, hself.2⟩

/-- The power `x ^ 2 ^ 31` times itself overflows.  The wrapping build stores a power zero of
`x`, which the factor does not divide, and which changes the order of the factors. -/
theorem mul_wraps :
    let s := power "x" 0x80000000
    s.Proper ∧ Overflows (s.mul s) ∧ s.mul s .wrapping = some (.ok ⟨[("x", 0)]⟩) ∧
      (⟨[("x", 0)]⟩ : Monomial).divide? s = none ∧ one.lexCmp s = .lt ∧
      s.lexCmp ⟨[("x", 0)]⟩ = .gt :=
  ⟨proper_iff.2 ⟨_, represents_power "x" rfl⟩, rfl, rfl, by decide +kernel, by decide +kernel,
    by decide +kernel⟩

end Stored.Monomial
end Meadow
