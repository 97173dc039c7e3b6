import Mathlib
import Meadow.Machine
import Meadow.Proofs.Stored.Related

set_option autoImplicit false

/-!
# What a computation ensures

The two builds of the program do the same as long as no sum of words overflows.  Of a
computation we therefore prove `Ensures`: either the checked build stops at an overflow, or
both builds end with the same value, of which something is known.  In the first case nothing
is said about the wrapping build; it goes on with another number, and may then end with
anything or not at all.

`Ensures` goes through sequences (`Ensures.bind`) and through loops over lists whose elements
stand in a relation to those of another list, on which a function does what the loop does.
-/

namespace Meadow.Machine

variable {α β σ τ : Type}

/-- The checked build stops at a sum that does not fit into a word. -/
def Overflows (c : Machine α) : Prop := c .checked = some (.error .overflow)

/-- Both builds end with the same value. -/
def Returns (c : Machine α) (a : α) : Prop := ∀ build, c build = some (.ok a)

/-- Unless the checked build stops at an overflow, both builds end with the same value, and `P`
holds of it. -/
def Ensures (c : Machine α) (P : α → Prop) : Prop := Overflows c ∨ ∃ a, P a ∧ Returns c a

theorem overflows_iff {c : Machine α} :
    Overflows c ↔ (match c .checked with
      | some (.error .overflow) => true
      | _ => false) = true := by
  unfold Overflows
  split
  · next h => simp [h]
  · next h => simpa using h

instance (c : Machine α) : Decidable (Overflows c) := decidable_of_iff _ overflows_iff.symm

theorem value?_eq_some_iff {c : Machine α} {a : α} {build : Build} :
    c.value? build = some a ↔ c build = some (.ok a) := by
  unfold value?
  split
  · next h => rw [h, Option.some.injEq, Option.some.injEq, Except.ok.injEq]
  · next h =>
    refine ⟨nofun, fun ha => absurd ha (h a)⟩

theorem returns_iff {c : Machine α} {a : α} :
    Returns c a ↔ c.value? .checked = some a ∧ c.value? .wrapping = some a := by
  rw [value?_eq_some_iff, value?_eq_some_iff]
  constructor
  · exact fun h => ⟨h .checked, h .wrapping⟩
  · rintro ⟨hchecked, hwrapping⟩ build
    cases build with
    | checked => exact hchecked
    | wrapping => exact hwrapping

instance [DecidableEq α] (c : Machine α) (a : α) : Decidable (Returns c a) :=
  decidable_of_iff _ returns_iff.symm

/-! ## Sequences -/

theorem returns_pure (a : α) : Returns (pure a) a := fun _ => rfl

theorem Returns.unique {c : Machine α} {a b : α} (ha : Returns c a) (hb : Returns c b) :
    a = b := by
  have h := (ha .checked).symm.trans (hb .checked)
  cases h
  rfl

/-- What follows a computation that ends goes on with its value. -/
theorem bind_eq_of_ok {c : Machine α} {a : α} {build : Build} (h : c build = some (.ok a))
    (f : α → Machine β) : (c >>= f) build = f a build := by
  change ExceptT.bindCont (f · build) =<< c build = f a build
  rw [h]
  rfl

theorem Returns.bind_eq {c : Machine α} {a : α} (h : Returns c a) (f : α → Machine β) :
    c >>= f = f a :=
  funext fun build => bind_eq_of_ok (h build) f

theorem Overflows.bind {c : Machine α} (h : Overflows c) (f : α → Machine β) :
    Overflows (c >>= f) := by
  change ExceptT.bindCont (f · .checked) =<< c .checked = _
  rw [show c .checked = some (.error .overflow) from h]
  rfl

theorem Returns.bind {c : Machine α} {a : α} {f : α → Machine β} {b : β} (h : Returns c a)
    (hf : Returns (f a) b) : Returns (c >>= f) b := by
  rw [h.bind_eq]
  exact hf

/-- An overflow is no value. -/
theorem Returns.not_overflows {c : Machine α} {a : α} (h : Returns c a) : ¬ Overflows c := by
  intro ho
  have heq := (h .checked).symm.trans ho
  cases heq

section Ensures

variable {c : Machine α} {P Q : α → Prop}

theorem ensures_of_returns {a : α} (h : Returns c a) (ha : P a) : Ensures c P :=
  Or.inr ⟨a, ha, h⟩

theorem ensures_pure {a : α} (h : P a) : Ensures (pure a) P :=
  ensures_of_returns (returns_pure a) h

theorem Ensures.mono (h : Ensures c P) (hPQ : ∀ a, P a → Q a) : Ensures c Q :=
  h.imp_right fun ⟨a, ha, hc⟩ => ⟨a, hPQ a ha, hc⟩

/-- What is ensured of a computation that returns holds of what it returns. -/
theorem Ensures.of_returns {a : α} (h : Ensures c P) (hc : Returns c a) : P a := by
  rcases h with ho | ⟨b, hb, hret⟩
  · exact absurd ho hc.not_overflows
  · exact hret.unique hc ▸ hb

/-- Two things ensured of a computation are ensured together. -/
theorem Ensures.and (hP : Ensures c P) (hQ : Ensures c Q) : Ensures c fun a => P a ∧ Q a := by
  rcases hP with ho | ⟨a, ha, hc⟩
  · exact Or.inl ho
  · exact ensures_of_returns hc ⟨ha, hQ.of_returns hc⟩

theorem Ensures.bind {R : β → Prop} {f : α → Machine β} (h : Ensures c P)
    (hf : ∀ a, P a → Ensures (f a) R) : Ensures (c >>= f) R := by
  rcases h with ho | ⟨a, ha, hc⟩
  · exact Or.inl (ho.bind f)
  · rw [hc.bind_eq]
    exact hf a ha

/-- What follows may also know that the computation returned. -/
theorem Ensures.bind_of_returns {R : β → Prop} {f : α → Machine β} (h : Ensures c P)
    (hf : ∀ a, Returns c a → P a → Ensures (f a) R) : Ensures (c >>= f) R := by
  rcases h with ho | ⟨a, ha, hc⟩
  · exact Or.inl (ho.bind f)
  · rw [hc.bind_eq]
    exact hf a hc ha

/-- A computation whose value is only changed afterwards. -/
theorem Ensures.map {R : β → Prop} {f : α → β} (h : Ensures c P) (hf : ∀ a, P a → R (f a)) :
    Ensures (c >>= fun a => pure (f a)) R :=
  h.bind fun a ha => ensures_pure (hf a ha)

end Ensures

/-! ## Sums and quotients -/

/-- A sum that fits into a word is found. -/
theorem returns_add {a b : UInt32} (h : a.toNat + b.toNat < UInt32.size) :
    Returns (add a b) (a + b) := by
  intro build
  cases build with
  | checked =>
    have hchecked : add a b .checked
        = if a.toNat + b.toNat < UInt32.size then pure (a + b) else throw Fault.overflow := rfl
    rw [hchecked, if_pos h]
    rfl
  | wrapping => rfl

theorem overflows_add {a b : UInt32} (h : ¬ a.toNat + b.toNat < UInt32.size) :
    Overflows (add a b) := by
  have hchecked : add a b .checked
      = if a.toNat + b.toNat < UInt32.size then pure (a + b) else throw Fault.overflow := rfl
  rw [Overflows, hchecked, if_neg h]
  rfl

/-- A sum that is not stopped is the sum of the numbers. -/
theorem ensures_add (a b : UInt32) :
    Ensures (add a b) fun c => c.toNat = a.toNat + b.toNat := by
  by_cases h : a.toNat + b.toNat < UInt32.size
  · refine ensures_of_returns (returns_add h) ?_
    rw [UInt32.toNat_add]
    exact Nat.mod_eq_of_lt h
  · exact Or.inl (overflows_add h)

theorem returns_divide {a b : Rat} (hb : b ≠ 0) : Returns (divide a b) (a / b) := by
  rw [divide, if_neg hb]
  exact returns_pure _

/-! ## Choices and loops -/

/-- Equivalent conditions choose computations of related values. -/
theorem Ensures.ite {S : β → τ → Prop} {P Q : Prop} [Decidable P] [Decidable Q] (h : P ↔ Q)
    {c d : Machine β} {t u : τ} (hc : Ensures c (S · t)) (hd : Ensures d (S · u)) :
    Ensures (if P then c else d) (S · (if Q then t else u)) := by
  by_cases hQ : Q
  · rwa [if_pos (h.2 hQ), if_pos hQ]
  · rwa [if_neg (mt h.1 hQ), if_neg hQ]

section Loops

variable {R : α → σ → Prop} {S : β → τ → Prop} {as : List α} {xs : List σ}

/-- A fold over related lists keeps related accumulators related. -/
theorem Ensures.foldlM {f : β → α → Machine β} {g : τ → σ → τ}
    (hf : ∀ {b t a x}, S b t → R a x → Ensures (f b a) (S · (g t x)))
    (h : List.Forall₂ R as xs) {b : β} {t : τ} (hb : S b t) :
    Ensures (as.foldlM f b) (S · (xs.foldl g t)) := by
  induction h generalizing b t with
  | nil => exact ensures_pure hb
  | cons hax _ ih =>
    rw [List.foldlM_cons]
    exact (hf hb hax).bind fun _ hb' => ih hb'

theorem Ensures.foldrM {f : α → β → Machine β} {g : σ → τ → τ}
    (hf : ∀ {a x b t}, R a x → S b t → Ensures (f a b) (S · (g x t)))
    (h : List.Forall₂ R as xs) {b : β} {t : τ} (hb : S b t) :
    Ensures (as.foldrM f b) (S · (xs.foldr g t)) := by
  induction h with
  | nil => exact ensures_pure hb
  | cons hax _ ih =>
    rw [List.foldrM_cons]
    exact ih.bind fun _ hb' => hf hax hb'

theorem Ensures.mapM {f : α → Machine β} {g : σ → τ}
    (hf : ∀ {a x}, R a x → Ensures (f a) (S · (g x))) (h : List.Forall₂ R as xs) :
    Ensures (as.mapM f) (List.Forall₂ S · (xs.map g)) := by
  induction h with
  | nil =>
    rw [List.mapM_nil]
    exact ensures_pure .nil
  | cons hax _ ih =>
    rw [List.mapM_cons]
    exact (hf hax).bind fun _ hb => ih.map fun _ hbs => .cons hb hbs

theorem Ensures.anyM {f : α → Machine Bool} {g : σ → Bool}
    (hf : ∀ {a x}, R a x → Ensures (f a) (· = g x)) (h : List.Forall₂ R as xs) :
    Ensures (as.anyM f) (· = xs.any g) := by
  induction h with
  | nil => exact ensures_pure rfl
  | @cons a x as xs hax _ ih =>
    rw [List.any_cons]
    refine (hf hax).bind fun b hb => ?_
    cases b with
    | true => exact ensures_pure (by rw [← hb, Bool.true_or])
    | false => exact ih.mono fun _ hrest => by rw [hrest, ← hb, Bool.false_or]

theorem Ensures.findSomeM? {f : α → Machine (Option β)} {g : σ → Option τ}
    (hf : ∀ {a x}, R a x → Ensures (f a) (Option.Rel S · (g x))) (h : List.Forall₂ R as xs) :
    Ensures (as.findSomeM? f) (Option.Rel S · (xs.findSome? g)) := by
  induction h with
  | nil => exact ensures_pure .none
  | @cons a x as xs hax _ ih =>
    rw [List.findSome?_cons]
    refine (hf hax).bind fun b hb => ?_
    generalize g x = t at hb
    cases hb with
    | some hbt => exact ensures_pure (.some hbt)
    | none => exact ih

/-- Elements are put in order by keys that are computed first, unless there are none to compare.
This does what sorting by the keys does if keys in their places compare as what they are related
to. -/
theorem Ensures.sortKeyed {key : α → Machine β} {K : β → σ → Prop}
    {le : β × α → β × α → Bool} {le' : σ → σ → Bool}
    (hkey : ∀ {a x}, R a x → Ensures (key a) (K · x))
    (hle : ∀ {s x t y}, K s.1 x ∧ R s.2 x → K t.1 y ∧ R t.2 y → le s t = le' x y)
    (h : List.Forall₂ R as xs) :
    Ensures (if as.length < 2 then pure as else do
      let keyed ← as.mapM fun a => do return (← key a, a)
      return (keyed.mergeSort le).map Prod.snd) (List.Forall₂ R · (xs.mergeSort le')) := by
  split
  · next hlength =>
    have hsorted : xs.mergeSort le' = xs := by
      rw [h.length_eq] at hlength
      match xs, hlength with
      | [], _ => exact List.mergeSort_nil
      | [x], _ => exact List.mergeSort_singleton x
    rw [hsorted]
    exact ensures_pure h
  · let S (s : β × α) (x : σ) : Prop := K s.1 x ∧ R s.2 x
    refine (Ensures.mapM (R := R) (S := S) (g := id)
      (fun hax => (hkey hax).map fun _ hk => ⟨hk, hax⟩) h).map fun keyed hkeyed => ?_
    rw [List.map_id] at hkeyed
    have hsorted := rel_mergeSort (R := S) hle hkeyed
    exact List.forall₂_map_left_iff.2 (hsorted.imp fun _ _ hs => hs.2)

end Loops

end Meadow.Machine
