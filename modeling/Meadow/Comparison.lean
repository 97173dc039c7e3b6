set_option autoImplicit false

/-!
# Building comparisons

The orders of this library are comparison functions.  `transCmp_of_lt` reduces
the laws of a total order to what has to be shown for each, and `descending`
turns an order round.
-/

namespace Meadow

/-- A comparison that is oriented, tells equal values apart from others and is
transitive below is a total order. -/
theorem transCmp_of_lt {α : Type} {cmp : α → α → Ordering}
    (hswap : ∀ a b, cmp a b = (cmp b a).swap) (heq : ∀ a b, cmp a b = .eq → a = b)
    (hlt : ∀ a b c, cmp a b = .lt → cmp b c = .lt → cmp a c = .lt) : Std.TransCmp cmp where
  eq_swap := hswap _ _
  isLE_trans {a b c} h₁ h₂ := by
    cases hab : cmp a b with
    | gt => simp [hab] at h₁
    | eq => rw [heq a b hab]; exact h₂
    | lt =>
      cases hbc : cmp b c with
      | gt => simp [hbc] at h₂
      | eq => rw [← heq b c hbc, hab]; rfl
      | lt => rw [hlt a b c hab hbc]; rfl

section Image

variable {α β : Type} {cmp : α → α → Ordering} {cmp' : β → β → Ordering} {f : α → β}

/-- Comparing images is a total order if comparing what they lie in is. -/
theorem transCmp_of_image [Std.TransCmp cmp'] (h : ∀ a b, cmp a b = cmp' (f a) (f b)) :
    Std.TransCmp cmp where
  eq_swap {a b} := by
    rw [h, h]
    exact Std.OrientedCmp.eq_swap
  isLE_trans {a b c} h₁ h₂ := by
    rw [h] at *
    exact Std.TransCmp.isLE_trans h₁ h₂

/-- Comparing images tells different values apart if their images differ. -/
theorem lawfulEqCmp_of_image [Std.LawfulEqCmp cmp'] (h : ∀ a b, cmp a b = cmp' (f a) (f b))
    (hf : ∀ {a b}, f a = f b → a = b) : Std.LawfulEqCmp cmp where
  compare_self {a} := by
    rw [h]
    exact Std.ReflCmp.compare_self
  eq_of_compare hab := hf (Std.LawfulEqCmp.eq_of_compare ((h _ _).symm.trans hab))

/-- Pairs compare by their first components and then by their second ones. -/
theorem transCmp_then [Std.TransCmp cmp] [Std.TransCmp cmp'] :
    Std.TransCmp fun s t : α × β => (cmp s.1 t.1).then (cmp' s.2 t.2) :=
  have : Std.TransCmp fun s t : α × β => cmp s.1 t.1 := transCmp_of_image fun _ _ => rfl
  have : Std.TransCmp fun s t : α × β => cmp' s.2 t.2 := transCmp_of_image fun _ _ => rfl
  inferInstanceAs (Std.TransCmp (compareLex (fun s t : α × β => cmp s.1 t.1) fun s t =>
    cmp' s.2 t.2))

theorem lawfulEqCmp_then [Std.LawfulEqCmp cmp] [Std.LawfulEqCmp cmp'] :
    Std.LawfulEqCmp fun s t : α × β => (cmp s.1 t.1).then (cmp' s.2 t.2) where
  compare_self := Ordering.then_eq_eq.2 ⟨Std.ReflCmp.compare_self, Std.ReflCmp.compare_self⟩
  eq_of_compare h := by
    simp only [Ordering.then_eq_eq, Std.LawfulEqCmp.compare_eq_iff_eq] at h
    exact Prod.ext h.1 h.2

end Image

/-- The same order downwards: the larger value comes first. -/
def descending {α : Type} (cmp : α → α → Ordering) (a b : α) : Ordering := cmp b a

section Descending

variable {α : Type} {cmp : α → α → Ordering}

instance [Std.TransCmp cmp] : Std.TransCmp (descending cmp) where
  eq_swap {a b} := by
    rw [descending, descending]
    exact Std.OrientedCmp.eq_swap
  isLE_trans {a b c} h₁ h₂ := by
    rw [descending] at *
    exact Std.TransCmp.isLE_trans h₂ h₁

instance [Std.LawfulEqCmp cmp] : Std.LawfulEqCmp (descending cmp) where
  compare_self {a} := by
    rw [descending]
    exact Std.ReflCmp.compare_self
  eq_of_compare h := (Std.LawfulEqCmp.eq_of_compare (show cmp _ _ = .eq from h)).symm

end Descending

/-- Names compare as their `<` says. -/
theorem compare_string_lt_iff {v w : String} : compare v w = .lt ↔ v < w := by
  change compareOfLessAndEq v w = .lt ↔ _
  exact compareOfLessAndEq_eq_lt

/-- Rationals compare as their `<` says. -/
def compareRat (a b : Rat) : Ordering := compareOfLessAndEq a b

theorem compareRat_eq_lt_iff {a b : Rat} : compareRat a b = .lt ↔ a < b :=
  compareOfLessAndEq_eq_lt

theorem compareRat_eq_eq_iff {a b : Rat} : compareRat a b = .eq ↔ a = b := by
  unfold compareRat compareOfLessAndEq
  split
  · next h =>
    simp only [reduceCtorEq, false_iff]
    rintro rfl
    exact Rat.lt_irrefl h
  · split <;> simp [*]

theorem compareRat_swap (a b : Rat) : compareRat a b = (compareRat b a).swap := by
  unfold compareRat compareOfLessAndEq
  rcases Std.lt_trichotomy a b with h | rfl | h
  · have hn : ¬ b < a := fun h' => Rat.lt_irrefl (Std.lt_trans h h')
    have hne : b ≠ a := by rintro rfl; exact Rat.lt_irrefl h
    simp [h, hn, hne]
  · simp
  · have hn : ¬ a < b := fun h' => Rat.lt_irrefl (Std.lt_trans h h')
    have hne : a ≠ b := by rintro rfl; exact Rat.lt_irrefl h
    simp [h, hn, hne]

instance : Std.TransCmp compareRat :=
  transCmp_of_lt compareRat_swap (fun _ _ => compareRat_eq_eq_iff.1) fun a b c hab hbc => by
    rw [compareRat_eq_lt_iff] at *
    exact Std.lt_trans hab hbc

instance : Std.LawfulEqCmp compareRat where
  compare_self := compareRat_eq_eq_iff.2 rfl
  eq_of_compare := compareRat_eq_eq_iff.1

end Meadow
