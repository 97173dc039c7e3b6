import Mathlib
import Meadow.FinSupp.Set

set_option autoImplicit false

/-!
# Related entries

Two lists of entries are related if their keys and their values are, place by place.  Merging
and changing values keep lists related as long as the comparisons of related keys agree and
`zero` is only related to `zero`; so do the operations on finitely supported functions, and
sorting does.
-/

namespace Meadow

variable {K K' V V' : Type}

/-- Entries with related keys and related values. -/
def EntryRel (R : K → K' → Prop) (S : V → V' → Prop) (e : K × V) (e' : K' × V') : Prop :=
  R e.1 e'.1 ∧ S e.2 e'.2

instance (R : K → K' → Prop) (S : V → V' → Prop) [∀ k k', Decidable (R k k')]
    [∀ v v', Decidable (S v v')] (e : K × V) (e' : K' × V') : Decidable (EntryRel R S e e') :=
  inferInstanceAs (Decidable (_ ∧ _))

/-- Sorting keeps lists related if related elements compare alike. -/
theorem rel_mergeSort {R : K → K' → Prop} {le : K → K → Bool} {le' : K' → K' → Bool}
    (hle : ∀ {a a' b b'}, R a a' → R b b' → le a b = le' a' b') {as : List K} {bs : List K'}
    (h : List.Forall₂ R as bs) : List.Forall₂ R (as.mergeSort le) (bs.mergeSort le') := by
  -- Both lists are the components of one list of related pairs, and sorting commutes with
  -- taking components.
  obtain ⟨zs, hzs, rfl, rfl⟩ : ∃ zs : List (K × K'), (∀ z ∈ zs, R z.1 z.2) ∧
      zs.map Prod.fst = as ∧ zs.map Prod.snd = bs := by
    refine ⟨as.zip bs, fun z hz => List.forall₂_zip h hz, ?_, ?_⟩
    · rw [List.map_fst_zip (Nat.le_of_eq h.length_eq)]
    · rw [List.map_snd_zip (Nat.le_of_eq h.length_eq.symm)]
  have hfst := List.map_mergeSort (r := fun z w : K × K' => le z.1 w.1) (s := le)
    (f := Prod.fst) (l := zs) fun _ _ _ _ => rfl
  have hsnd := List.map_mergeSort (r := fun z w : K × K' => le z.1 w.1) (s := le')
    (f := Prod.snd) (l := zs) fun z hz w hw => hle (hzs z hz) (hzs w hw)
  rw [← hfst, ← hsnd, List.forall₂_map_left_iff, List.forall₂_map_right_iff, List.forall₂_same]
  exact fun z hz => hzs z (List.mem_mergeSort.1 hz)

/-- Filtering keeps lists related if related elements are kept alike. -/
theorem rel_filter {R : K → K' → Prop} {p : K → Bool} {q : K' → Bool}
    (hpq : ∀ {a b}, R a b → p a = q b) {as : List K} {bs : List K'} (h : List.Forall₂ R as bs) :
    List.Forall₂ R (as.filter p) (bs.filter q) :=
  List.rel_filter (fun _ _ hab => iff_of_eq (congrArg (· = true) (hpq hab))) h

/-- What is kept is related and has passed the test. -/
theorem rel_filter_and {R : K → K' → Prop} {p : K → Bool} {q : K' → Bool}
    (hpq : ∀ {a b}, R a b → p a = q b) {as : List K} {bs : List K'} (h : List.Forall₂ R as bs) :
    List.Forall₂ (fun a b => R a b ∧ p a = true) (as.filter p) (bs.filter q) := by
  induction h with
  | nil => exact .nil
  | @cons a b as bs hab _ ih =>
    cases hp : p a with
    | true =>
      rw [List.filter_cons_of_pos hp, List.filter_cons_of_pos (hpq hab ▸ hp)]
      exact .cons ⟨hab, hp⟩ ih
    | false =>
      rw [List.filter_cons_of_neg (by simp [hp]), List.filter_cons_of_neg (by simp [← hpq hab, hp])]
      exact ih

/-- What all of the right list have holds beside the relation. -/
theorem rel_and_right {R : K → K' → Prop} {P : K' → Prop} {as : List K} {bs : List K'}
    (h : List.Forall₂ R as bs) (hP : ∀ b ∈ bs, P b) :
    List.Forall₂ (fun a b => R a b ∧ P b) as bs := by
  induction h with
  | nil => exact .nil
  | cons hab _ ih =>
    obtain ⟨hb, hbs⟩ := List.forall_mem_cons.1 hP
    exact .cons ⟨hab, hb⟩ (ih hbs)

/-- What is in one list is related to something in the other. -/
theorem exists_mem_of_rel {R : K → K' → Prop} {as : List K} {bs : List K'}
    (h : List.Forall₂ R as bs) {a : K} (ha : a ∈ as) : ∃ b ∈ bs, R a b := by
  induction h with
  | nil => exact absurd ha List.not_mem_nil
  | @cons a' b as bs hab _ ih =>
    rcases List.mem_cons.1 ha with rfl | ha
    · exact ⟨b, List.mem_cons_self, hab⟩
    · obtain ⟨c, hc, hac⟩ := ih ha
      exact ⟨c, List.mem_cons_of_mem b hc, hac⟩

theorem rel_replicate {R : K → K' → Prop} {a : K} {b : K'} (h : R a b) (n : ℕ) :
    List.Forall₂ R (List.replicate n a) (List.replicate n b) := by
  induction n with
  | zero => exact .nil
  | succ n ih => exact .cons h ih

/-- Related lists pass a test together if related elements do. -/
theorem rel_all {R : K → K' → Prop} {p : K → Bool} {q : K' → Bool}
    (hpq : ∀ {a b}, R a b → p a = q b) {as : List K} {bs : List K'} (h : List.Forall₂ R as bs) :
    as.all p = bs.all q := by
  induction h with
  | nil => rfl
  | cons hab _ ih => rw [List.all_cons, List.all_cons, hpq hab, ih]

theorem rel_any {R : K → K' → Prop} {p : K → Bool} {q : K' → Bool}
    (hpq : ∀ {a b}, R a b → p a = q b) {as : List K} {bs : List K'} (h : List.Forall₂ R as bs) :
    as.any p = bs.any q := by
  induction h with
  | nil => rfl
  | cons hab _ ih => rw [List.any_cons, List.any_cons, hpq hab, ih]

/-- Words of related letters compare alike. -/
theorem rel_compareLex {R : K → K' → Prop} {cmp : K → K → Ordering} {cmp' : K' → K' → Ordering}
    (hcmp : ∀ {a a' b b'}, R a a' → R b b' → cmp a b = cmp' a' b') {as bs : List K}
    {as' bs' : List K'} (ha : List.Forall₂ R as as') (hb : List.Forall₂ R bs bs') :
    List.compareLex cmp as bs = List.compareLex cmp' as' bs' := by
  induction ha generalizing bs bs' with
  | nil => cases hb <;> rfl
  | cons ha _ ih =>
    cases hb with
    | nil => rfl
    | cons hb hbs =>
      rw [List.compareLex_cons_cons, List.compareLex_cons_cons, hcmp ha hb, ih hbs]

/-- Equivalent conditions choose related values. -/
theorem rel_ite {R : K → K' → Prop} {P Q : Prop} [Decidable P] [Decidable Q] (h : P ↔ Q) {a b : K}
    {a' b' : K'} (ha : R a a') (hb : R b b') :
    R (if P then a else b) (if Q then a' else b') := by
  by_cases hQ : Q
  · rwa [if_pos (h.2 hQ), if_pos hQ]
  · rwa [if_neg (mt h.1 hQ), if_neg hQ]

/-- The same error, or related values. -/
inductive ExceptRel {ε : Type} (R : K → K' → Prop) : Except ε K → Except ε K' → Prop
  | error (e : ε) : ExceptRel R (.error e) (.error e)
  | ok {a : K} {b : K'} (h : R a b) : ExceptRel R (.ok a) (.ok b)

theorem eq_none_iff_of_rel {R : K → K' → Prop} {x : Option K} {y : Option K'}
    (h : Option.Rel R x y) : x = none ↔ y = none := by
  cases h <;> simp

theorem isSome_eq_of_rel {R : K → K' → Prop} {x : Option K} {y : Option K'}
    (h : Option.Rel R x y) : x.isSome = y.isSome := by
  cases h <;> rfl

theorem exists_of_rel {R : K → K' → Prop} {x : Option K} {y : Option K'} (h : Option.Rel R x y)
    {b : K'} (hy : y = some b) : ∃ a, x = some a ∧ R a b := by
  subst hy
  cases h with
  | some hab => exact ⟨_, rfl, hab⟩

theorem rel_optionMap {R : K → K' → Prop} {S : V → V' → Prop} {f : K → V} {g : K' → V'}
    (hfg : ∀ {a b}, R a b → S (f a) (g b)) {x : Option K} {y : Option K'}
    (h : Option.Rel R x y) : Option.Rel S (x.map f) (y.map g) := by
  cases h with
  | some hab => exact .some (hfg hab)
  | none => exact .none

theorem rel_getD {R : K → K' → Prop} {x : Option K} {y : Option K'} (h : Option.Rel R x y) {a : K}
    {b : K'} (hab : R a b) : R (x.getD a) (y.getD b) := by
  cases h with
  | some h => exact h
  | none => exact hab

/-- Partial functions with related values succeed on all of related lists alike. -/
theorem rel_mapM {R : K → K' → Prop} {S : V → V' → Prop} {f : K → Option V} {g : K' → Option V'}
    (hfg : ∀ {a b}, R a b → Option.Rel S (f a) (g b)) {as : List K} {bs : List K'}
    (h : List.Forall₂ R as bs) : Option.Rel (List.Forall₂ S) (as.mapM f) (bs.mapM g) := by
  induction h with
  | nil => exact .some .nil
  | @cons a b as bs hab _ ih =>
    rw [List.mapM_cons, List.mapM_cons]
    have hval := hfg hab
    revert hval ih
    generalize f a = v
    generalize g b = w
    generalize as.mapM f = vs
    generalize bs.mapM g = ws
    intro ih hval
    cases hval with
    | none => exact .none
    | some hvw =>
      cases ih with
      | none => exact .none
      | some hvs => exact .some (.cons hvw hvs)

namespace Entries

variable {R : K → K' → Prop} {S : V → V' → Prop} {zero : V} {zero' : V'}
  {es : List (K × V)} {es' : List (K' × V')}

theorem rel_get [DecidableEq K] [DecidableEq K']
    (hkey : ∀ {k k' l l'}, R k k' → R l l' → (k = l ↔ k' = l')) (hz : S zero zero') {k : K}
    {k' : K'} (hk : R k k') (h : List.Forall₂ (EntryRel R S) es es') :
    S (get zero k es) (get zero' k' es') := by
  induction h with
  | nil => exact hz
  | @cons e e' es es' he _ ih =>
    unfold get
    exact rel_ite (hkey he.1 hk) he.2 ih

variable [DecidableEq V] [DecidableEq V'] (hz : ∀ {v v'}, S v v' → (v = zero ↔ v' = zero'))

include hz

theorem rel_consNonzero {k : K} {k' : K'} {v : V} {v' : V'} (hk : R k k') (hv : S v v')
    (h : List.Forall₂ (EntryRel R S) es es') :
    List.Forall₂ (EntryRel R S) (consNonzero zero k v es) (consNonzero zero' k' v' es') := by
  unfold consNonzero
  exact rel_ite (R := List.Forall₂ (EntryRel R S)) (hz hv) h (.cons ⟨hk, hv⟩ h)

theorem rel_mapVals {f : K → V → V} {f' : K' → V' → V'}
    (hf : ∀ {k v e'}, e' ∈ es' → R k e'.1 → S v e'.2 → S (f k v) (f' e'.1 e'.2))
    (h : List.Forall₂ (EntryRel R S) es es') :
    List.Forall₂ (EntryRel R S) (mapVals zero f es) (mapVals zero' f' es') := by
  induction h with
  | nil => exact .nil
  | cons he _ ih =>
    refine rel_consNonzero hz he.1 (hf List.mem_cons_self he.1 he.2) (ih fun hmem => ?_)
    exact hf (List.mem_cons_of_mem _ hmem)

theorem rel_merge {cmp : K → K → Ordering} {cmp' : K' → K' → Ordering}
    (hcmp : ∀ {k k' l l'}, R k k' → R l l' → cmp k l = cmp' k' l') {f : V → V → V}
    {f' : V' → V' → V'} (hf : ∀ {u u' v v'}, S u u' → S v v' → S (f u v) (f' u' v'))
    {fs : List (K × V)} {fs' : List (K' × V')} (h : List.Forall₂ (EntryRel R S) es es')
    (hfs : List.Forall₂ (EntryRel R S) fs fs') :
    List.Forall₂ (EntryRel R S) (merge cmp zero f es fs) (merge cmp' zero' f' es' fs') := by
  induction h generalizing fs fs' with
  | nil => exact hfs
  | @cons a a' as as' ha has ih =>
    rw [merge, merge]
    induction hfs with
    | nil => exact .cons ha (ih .nil)
    | @cons b b' bs bs' hb hbs ihb =>
      rw [mergeInto, mergeInto, hcmp ha.1 hb.1]
      split
      · exact .cons ha (ih (.cons hb hbs))
      · exact rel_consNonzero hz ha.1 (hf ha.2 hb.2) (ih hbs)
      · exact .cons hb ihb

omit hz [DecidableEq V'] in
/-- How values are joined does not matter for an entry whose key is new. -/
theorem merge_singleton_eq {cmp : K → K → Ordering} {e : K × V}
    (h : ∀ e' ∈ es, cmp e.1 e'.1 ≠ .eq) (f g : V → V → V) :
    merge cmp zero f [e] es = merge cmp zero g [e] es := by
  rw [merge, merge]
  induction es with
  | nil => rfl
  | cons e' es ih =>
    obtain ⟨he', hes⟩ := List.forall_mem_cons.1 h
    rw [mergeInto, mergeInto, ih hes]
    cases hcmp : cmp e.1 e'.1 with
    | lt => rfl
    | eq => exact absurd hcmp he'
    | gt => rfl

omit hz [DecidableEq V'] in
theorem merge_nil (cmp : K → K → Ordering) (f : V → V → V) (es : List (K × V)) :
    merge cmp zero f es [] = es := by
  induction es with
  | nil => rfl
  | cons e es ih => rw [merge, mergeInto, ih]

end Entries

/-! ## Finitely supported functions -/

namespace FinSupp

variable {cmp : K → K → Ordering} {cmp' : K' → K' → Ordering} {zero : V} {zero' : V'}

/-- Related values at related keys. -/
def Related (R : K → K' → Prop) (S : V → V' → Prop) (f : FinSupp K V cmp zero)
    (g : FinSupp K' V' cmp' zero') : Prop :=
  List.Forall₂ (EntryRel R S) f.entries g.entries

variable {R : K → K' → Prop} {S : V → V' → Prop} {f : FinSupp K V cmp zero}
  {g : FinSupp K' V' cmp' zero'}

theorem related_empty : Related R S (empty : FinSupp K V cmp zero)
    (empty : FinSupp K' V' cmp' zero') :=
  .nil

theorem Related.filter (h : Related R S f g) {p : K → Bool} {q : K' → Bool}
    (hpq : ∀ {k k'}, R k k' → p k = q k') : Related R S (f.filter p) (g.filter q) :=
  rel_filter (fun he => hpq he.1) h

theorem Related.keys (h : Related R S f g) : List.Forall₂ R f.keys g.keys :=
  List.rel_map (fun _ _ he => he.1) h

theorem Related.get [DecidableEq K] [DecidableEq K']
    (hkey : ∀ {k k' l l'}, R k k' → R l l' → (k = l ↔ k' = l')) (hz : S zero zero')
    (h : Related R S f g) {k : K} {k' : K'} (hk : R k k') : S (f.get k) (g.get k') :=
  Entries.rel_get hkey hz hk h

/-- What the keys stand for can be put into a function of its own. -/
theorem exists_related {V : Type} {zero : V} {f : FinSupp K V cmp zero}
    (hcmp : ∀ {k k' l l'}, R k k' → R l l' → cmp k l = cmp' k' l')
    (h : ∀ k ∈ f.keys, ∃ k', R k k') : ∃ g : FinSupp K' V cmp' zero, Related R (· = ·) f g := by
  choose j hj using fun e : {e // e ∈ f.entries} => h e.1.1 (List.mem_map_of_mem e.2)
  refine ⟨⟨f.entries.attach.map fun e => (j e, e.1.2), ?_, fun e he => ?_⟩, ?_⟩
  · have hsorted : f.entries.attach.Pairwise fun d e => cmp d.1.1 e.1.1 = .lt :=
      List.pairwise_map.1 (f.entries.attach_map_subtype_val.symm ▸ f.sorted)
    exact List.pairwise_map.2 (hsorted.imp fun hde => (hcmp (hj _) (hj _)).symm.trans hde)
  · obtain ⟨d, -, rfl⟩ := List.mem_map.1 he
    exact f.nonzero d.1 d.2
  · have hrel : List.Forall₂ (EntryRel R (· = ·)) (f.entries.attach.map Subtype.val)
        (f.entries.attach.map fun e => (j e, e.1.2)) := by
      rw [List.forall₂_map_left_iff, List.forall₂_map_right_iff, List.forall₂_same]
      exact fun e _ => ⟨hj e, rfl⟩
    rwa [f.entries.attach_map_subtype_val] at hrel

variable [DecidableEq V] [DecidableEq V'] (hz : ∀ {v v'}, S v v' → (v = zero ↔ v' = zero'))

include hz

theorem related_single {k : K} {k' : K'} {v : V} {v' : V'} (hk : R k k') (hv : S v v') :
    Related R S (single k v : FinSupp K V cmp zero) (single k' v' : FinSupp K' V' cmp' zero') := by
  unfold single
  by_cases h0 : v = zero
  · rw [dif_pos h0, dif_pos ((hz hv).1 h0)]
    exact related_empty
  · rw [dif_neg h0, dif_neg (mt (hz hv).2 h0)]
    exact .cons ⟨hk, hv⟩ .nil

theorem Related.mapVals {i : K → V → V} {j : K' → V' → V'}
    (hij : ∀ {k k' v v'}, R k k' → S v v' → S (i k v) (j k' v')) (h : Related R S f g) :
    Related R S (f.mapVals i) (g.mapVals j) :=
  Entries.rel_mapVals (R := R) (S := S) hz (fun _ hk hv => hij hk hv) h

theorem Related.merge [Std.TransCmp cmp] [Std.LawfulEqCmp cmp] [Std.TransCmp cmp']
    [Std.LawfulEqCmp cmp'] (hcmp : ∀ {k k' l l'}, R k k' → R l l' → cmp k l = cmp' k' l')
    {j : V → V → V} {j' : V' → V' → V'}
    (hj : ∀ {u u' v v'}, S u u' → S v v' → S (j u v) (j' u' v')) {f₂ : FinSupp K V cmp zero}
    {g₂ : FinSupp K' V' cmp' zero'} (h : Related R S f g) (h₂ : Related R S f₂ g₂) :
    Related R S (f.merge j f₂) (g.merge j' g₂) :=
  Entries.rel_merge (R := R) (S := S) hz hcmp hj h h₂

end FinSupp
end Meadow
