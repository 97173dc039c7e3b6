set_option autoImplicit false

/-!
# Sorted lists of entries

A finitely supported function is stored as the list of its entries, strictly
increasing in the key and without the value `zero`.  This module defines what
such lists are (`Sorted`, `Nonzero`), reads values from them (`get`), and gives
the two operations that everything else is made of, merging and changing the
values, with the values that they produce (`get_merge`, `get_mapVals`).
-/

namespace Meadow

/-! ## Lists of entries -/

namespace Entries

variable {K V : Type} (cmp : K → K → Ordering)

/-- Strictly increasing keys. -/
def Sorted (es : List (K × V)) : Prop := es.Pairwise fun a b => cmp a.1 b.1 = .lt

/-- No entry has the value `zero`. -/
def Nonzero (zero : V) (es : List (K × V)) : Prop := ∀ e ∈ es, e.2 ≠ zero

/-- The value at a key; `zero` when the key is not listed. -/
def get [DecidableEq K] (zero : V) (k : K) : List (K × V) → V
  | [] => zero
  | e :: es => if e.1 = k then e.2 else get zero k es

/-- Put an entry in front of a list unless its value is `zero`. -/
def consNonzero [DecidableEq V] (zero : V) (k : K) (v : V) (es : List (K × V)) : List (K × V) :=
  if v = zero then es else (k, v) :: es

/-- Put one entry in front of a merge that `rest` continues; `f` joins the
values at a shared key. -/
def mergeInto [DecidableEq V] (zero : V) (f : V → V → V) (a : K × V)
    (rest : List (K × V) → List (K × V)) : List (K × V) → List (K × V)
  | [] => a :: rest []
  | b :: bs =>
    match cmp a.1 b.1 with
    | .lt => a :: rest (b :: bs)
    | .eq => consNonzero zero a.1 (f a.2 b.2) (rest bs)
    | .gt => b :: mergeInto zero f a rest bs

/-- Merge two sorted lists; `f` joins the values at a shared key, and a joint
value that is `zero` is dropped. -/
def merge [DecidableEq V] (zero : V) (f : V → V → V) :
    List (K × V) → List (K × V) → List (K × V)
  | [], bs => bs
  | a :: as, bs => mergeInto cmp zero f a (fun rs => merge zero f as rs) bs

/-- Replace every value by `f` of its key and itself, dropping the zeros. -/
def mapVals [DecidableEq V] (zero : V) (f : K → V → V) (es : List (K × V)) : List (K × V) :=
  es.foldr (fun e rest => consNonzero zero e.1 (f e.1 e.2) rest) []

variable {cmp}

theorem mem_consNonzero [DecidableEq V] {zero : V} {k : K} {v : V} {es : List (K × V)}
    {e : K × V} (h : e ∈ consNonzero zero k v es) : e = (k, v) ∨ e ∈ es := by
  unfold consNonzero at h
  split at h
  · exact Or.inr h
  · exact List.mem_cons.1 h

theorem nonzero_consNonzero [DecidableEq V] {zero : V} {k : K} {v : V} {es : List (K × V)}
    (h : Nonzero zero es) : Nonzero zero (consNonzero zero k v es) := by
  unfold consNonzero
  split
  · exact h
  · next hne => exact List.forall_mem_cons.2 ⟨hne, h⟩

theorem sorted_consNonzero [DecidableEq V] {zero : V} {k : K} {v : V} {es : List (K × V)}
    (hk : ∀ e ∈ es, cmp k e.1 = .lt) (h : Sorted cmp es) :
    Sorted cmp (consNonzero zero k v es) := by
  unfold consNonzero
  split
  · exact h
  · exact List.pairwise_cons.2 ⟨hk, h⟩

section Get

variable [DecidableEq K] {zero : V}

theorem get_eq_zero {k : K} {es : List (K × V)} (h : ∀ e ∈ es, e.1 ≠ k) :
    get zero k es = zero := by
  induction es with
  | nil => rfl
  | cons e es ih =>
    simp [get, h e List.mem_cons_self, ih fun a ha => h a (List.mem_cons_of_mem _ ha)]

/-- A key with a value other than `zero` is listed with that value. -/
theorem mem_of_get_ne_zero {k : K} {es : List (K × V)} (h : get zero k es ≠ zero) :
    (k, get zero k es) ∈ es := by
  induction es with
  | nil => exact absurd rfl h
  | cons e es ih =>
    by_cases he : e.1 = k
    · subst he
      simp [get]
    · simp only [get, if_neg he] at h ⊢
      exact List.mem_cons_of_mem _ (ih h)

theorem get_consNonzero [DecidableEq V] {k : K} {v : V} {es : List (K × V)}
    (hk : get zero k es = zero) (l : K) :
    get zero l (consNonzero zero k v es) = if k = l then v else get zero l es := by
  unfold consNonzero
  split
  · next hv =>
    split
    · next hl => rw [← hl, hk, hv]
    · rfl
  · rfl

variable [Std.TransCmp cmp] [Std.LawfulEqCmp cmp]

omit [DecidableEq K] [Std.LawfulEqCmp cmp] in
private theorem ne_of_lt {k l : K} (h : cmp k l = .lt) : l ≠ k := by
  rintro rfl
  simp [Std.ReflCmp.compare_self] at h

omit [Std.LawfulEqCmp cmp] in
/-- A listed entry gives its key its value. -/
theorem get_of_mem {es : List (K × V)} (hs : Sorted cmp es) {e : K × V} (h : e ∈ es) :
    get zero e.1 es = e.2 := by
  induction es with
  | nil => cases h
  | cons a es ih =>
    obtain ⟨ha, hs⟩ := List.pairwise_cons.1 hs
    rcases List.mem_cons.1 h with rfl | h
    · simp [get]
    · simp [get, (ne_of_lt (ha e h)).symm, ih hs h]

omit [Std.LawfulEqCmp cmp] in
/-- A key below every listed one has the value `zero`. -/
theorem get_below {k : K} {es : List (K × V)} (h : ∀ e ∈ es, cmp k e.1 = .lt) :
    get zero k es = zero :=
  get_eq_zero fun e he => ne_of_lt (h e he)

/-- Sorted lists without zeros are determined by their values. -/
theorem ext_get {as bs : List (K × V)} (has : Sorted cmp as) (hbs : Sorted cmp bs)
    (nas : Nonzero zero as) (nbs : Nonzero zero bs)
    (h : ∀ k, get zero k as = get zero k bs) : as = bs := by
  induction as generalizing bs with
  | nil =>
    cases bs with
    | nil => rfl
    | cons b bs =>
      have hb := h b.1
      simp only [get, if_true] at hb
      exact absurd hb.symm (nbs b List.mem_cons_self)
  | cons a as ih =>
    obtain ⟨ha, has'⟩ := List.pairwise_cons.1 has
    have hav : get zero a.1 (a :: as) = a.2 := by simp [get]
    have na := nas a List.mem_cons_self
    cases bs with
    | nil =>
      rw [h a.1] at hav
      exact absurd hav.symm na
    | cons b bs =>
      obtain ⟨hb, hbs'⟩ := List.pairwise_cons.1 hbs
      have hbv : get zero b.1 (b :: bs) = b.2 := by simp [get]
      have nb := nbs b List.mem_cons_self
      have hmem : (a.1, a.2) ∈ b :: bs := by
        have hget : get zero a.1 (b :: bs) = a.2 := by rw [← h, hav]
        have := mem_of_get_ne_zero (hget ▸ na)
        rwa [hget] at this
      have hmem' : (b.1, b.2) ∈ a :: as := by
        have hget : get zero b.1 (a :: as) = b.2 := by rw [h, hbv]
        have := mem_of_get_ne_zero (hget ▸ nb)
        rwa [hget] at this
      have hab : a = b := by
        rcases List.mem_cons.1 hmem with e | hm
        · exact e
        · rcases List.mem_cons.1 hmem' with e | hm'
          · exact e.symm
          · have h₁ := hb _ hm
            have h₂ := ha _ hm'
            have h₃ := Std.TransCmp.lt_trans h₁ h₂
            simp [Std.ReflCmp.compare_self] at h₃
      subst hab
      congr 1
      refine ih has' hbs' (fun e he => nas e (List.mem_cons_of_mem _ he))
        (fun e he => nbs e (List.mem_cons_of_mem _ he)) fun k => ?_
      by_cases hk : a.1 = k
      · subst hk
        rw [get_below ha, get_below hb]
      · simpa [get, hk] using h k

end Get

/-! ## Merging -/

section Merge

variable [DecidableEq V] {zero : V} {f : V → V → V}

/-- Every key of a merge comes from one of its two lists. -/
theorem key_of_mem_merge {as bs : List (K × V)} {e : K × V} (h : e ∈ merge cmp zero f as bs) :
    (∃ a ∈ as, a.1 = e.1) ∨ ∃ b ∈ bs, b.1 = e.1 := by
  induction as generalizing bs with
  | nil => exact Or.inr ⟨e, h, rfl⟩
  | cons a as ih =>
    have step {rs : List (K × V)} (hr : e ∈ merge cmp zero f as rs) :
        (∃ x ∈ a :: as, x.1 = e.1) ∨ ∃ b ∈ rs, b.1 = e.1 := by
      rcases ih hr with ⟨x, hx, he⟩ | hb
      · exact Or.inl ⟨x, List.mem_cons_of_mem _ hx, he⟩
      · exact Or.inr hb
    have tail {b : K × V} {bs : List (K × V)}
        (hr : (∃ x ∈ a :: as, x.1 = e.1) ∨ ∃ b ∈ bs, b.1 = e.1) :
        (∃ x ∈ a :: as, x.1 = e.1) ∨ ∃ x ∈ b :: bs, x.1 = e.1 := by
      rcases hr with hx | ⟨x, hx, he⟩
      · exact Or.inl hx
      · exact Or.inr ⟨x, List.mem_cons_of_mem _ hx, he⟩
    rw [merge] at h
    induction bs with
    | nil =>
      rcases List.mem_cons.1 h with rfl | h
      · exact Or.inl ⟨_, List.mem_cons_self, rfl⟩
      · exact step h
    | cons b bs ihb =>
      rw [mergeInto] at h
      split at h
      · rcases List.mem_cons.1 h with rfl | h
        · exact Or.inl ⟨_, List.mem_cons_self, rfl⟩
        · exact step h
      · rcases mem_consNonzero h with rfl | h
        · exact Or.inl ⟨_, List.mem_cons_self, rfl⟩
        · exact tail (step h)
      · rcases List.mem_cons.1 h with rfl | h
        · exact Or.inr ⟨_, List.mem_cons_self, rfl⟩
        · exact tail (ihb h)

theorem nonzero_merge {as bs : List (K × V)} (has : Nonzero zero as) (hbs : Nonzero zero bs) :
    Nonzero zero (merge cmp zero f as bs) := by
  induction as generalizing bs with
  | nil => exact hbs
  | cons a as ih =>
    obtain ⟨ha, has⟩ := List.forall_mem_cons.1 has
    rw [merge]
    induction bs with
    | nil => exact List.forall_mem_cons.2 ⟨ha, ih has hbs⟩
    | cons b bs ihb =>
      obtain ⟨hb, hbs'⟩ := List.forall_mem_cons.1 hbs
      rw [mergeInto]
      split
      · exact List.forall_mem_cons.2 ⟨ha, ih has hbs⟩
      · exact nonzero_consNonzero (ih has hbs')
      · exact List.forall_mem_cons.2 ⟨hb, ihb hbs'⟩

variable [Std.TransCmp cmp] [Std.LawfulEqCmp cmp]

theorem sorted_merge {as bs : List (K × V)} (has : Sorted cmp as) (hbs : Sorted cmp bs) :
    Sorted cmp (merge cmp zero f as bs) := by
  induction as generalizing bs with
  | nil => exact hbs
  | cons a as ih =>
    obtain ⟨ha, has⟩ := List.pairwise_cons.1 has
    rw [merge]
    induction bs with
    | nil =>
      refine List.pairwise_cons.2 ⟨fun e he => ?_, ih has hbs⟩
      rcases key_of_mem_merge he with ⟨x, hx, h⟩ | ⟨x, hx, -⟩
      · exact h ▸ ha x hx
      · cases hx
    | cons b bs ihb =>
      obtain ⟨hb, hbs'⟩ := List.pairwise_cons.1 hbs
      rw [mergeInto]
      split
      · next hlt =>
        refine List.pairwise_cons.2 ⟨fun e he => ?_, ih has hbs⟩
        rcases key_of_mem_merge he with ⟨x, hx, h⟩ | ⟨x, hx, h⟩
        · exact h ▸ ha x hx
        · rcases List.mem_cons.1 hx with rfl | hx
          · exact h ▸ hlt
          · exact h ▸ Std.TransCmp.lt_trans hlt (hb x hx)
      · next heq =>
        refine sorted_consNonzero (fun e he => ?_) (ih has hbs')
        rcases key_of_mem_merge he with ⟨x, hx, h⟩ | ⟨x, hx, h⟩
        · exact h ▸ ha x hx
        · rw [Std.LawfulEqCmp.eq_of_compare heq]
          exact h ▸ hb x hx
      · next hgt =>
        have hlt := Std.OrientedCmp.lt_of_gt hgt
        refine List.pairwise_cons.2 ⟨fun e he => ?_, ihb hbs'⟩
        have he : e ∈ merge cmp zero f (a :: as) bs := he
        rcases key_of_mem_merge he with ⟨x, hx, h⟩ | ⟨x, hx, h⟩
        · rcases List.mem_cons.1 hx with rfl | hx
          · exact h ▸ hlt
          · exact h ▸ Std.TransCmp.lt_trans hlt (ha x hx)
        · exact h ▸ hb x hx

/-- A merge joins the values at every key, as long as joining with `zero` keeps
the other value. -/
theorem get_merge [DecidableEq K] (hl : ∀ v, f zero v = v) (hr : ∀ v, f v zero = v)
    {as bs : List (K × V)} (has : Sorted cmp as) (hbs : Sorted cmp bs) (k : K) :
    get zero k (merge cmp zero f as bs) = f (get zero k as) (get zero k bs) := by
  induction as generalizing bs k with
  | nil => simp [merge, get, hl]
  | cons a as ih =>
    obtain ⟨ha, has⟩ := List.pairwise_cons.1 has
    rw [merge]
    induction bs generalizing k with
    | nil =>
      have := ih has hbs k
      simp only [mergeInto, get, this]
      split <;> simp [hr]
    | cons b bs ihb =>
      obtain ⟨hb, hbs'⟩ := List.pairwise_cons.1 hbs
      rw [mergeInto]
      split
      · next hlt =>
        have := ih has hbs k
        simp only [get] at this ⊢
        split
        · next hk =>
          subst hk
          have hnot : b.1 ≠ a.1 := ne_of_lt hlt
          have hzero : get zero a.1 bs = zero :=
            get_below fun e he => Std.TransCmp.lt_trans hlt (hb e he)
          simp [hnot, hzero, hr]
        · exact this
      · next heq =>
        have heq := Std.LawfulEqCmp.eq_of_compare heq
        have hzero : get zero a.1 (merge cmp zero f as bs) = zero := by
          rw [ih has hbs', get_below ha, heq, get_below hb, hl]
        rw [get_consNonzero hzero, ih has hbs']
        simp only [get, ← heq]
        split <;> rfl
      · next hgt =>
        have hlt := Std.OrientedCmp.lt_of_gt hgt
        have := ihb hbs' k
        simp only [get, this]
        by_cases hk : b.1 = k
        · subst hk
          have hnot : a.1 ≠ b.1 := ne_of_lt hlt
          have hzero : get zero b.1 as = zero :=
            get_below fun e he => Std.TransCmp.lt_trans hlt (ha e he)
          simp [hnot, hzero, hl]
        · simp [hk]

end Merge

/-! ## Changing the values -/

section MapVals

variable [DecidableEq V] {zero : V} {f : K → V → V}

theorem key_of_mem_mapVals {es : List (K × V)} {x : K × V} (h : x ∈ mapVals zero f es) :
    ∃ e ∈ es, e.1 = x.1 := by
  induction es with
  | nil => cases h
  | cons e es ih =>
    rcases mem_consNonzero h with rfl | h
    · exact ⟨e, List.mem_cons_self, rfl⟩
    · obtain ⟨a, ha, hx⟩ := ih h
      exact ⟨a, List.mem_cons_of_mem _ ha, hx⟩

theorem nonzero_mapVals (es : List (K × V)) : Nonzero zero (mapVals zero f es) := by
  induction es with
  | nil => exact fun _ h => nomatch h
  | cons e es ih => exact nonzero_consNonzero ih

theorem sorted_mapVals {es : List (K × V)} (hs : Sorted cmp es) :
    Sorted cmp (mapVals zero f es) := by
  induction es with
  | nil => exact List.Pairwise.nil
  | cons e es ih =>
    obtain ⟨he, hs⟩ := List.pairwise_cons.1 hs
    refine sorted_consNonzero (fun x hx => ?_) (ih hs)
    obtain ⟨a, ha, hk⟩ := key_of_mem_mapVals hx
    exact hk ▸ he a ha

theorem get_mapVals [DecidableEq K] [Std.TransCmp cmp] {es : List (K × V)}
    (hs : Sorted cmp es) {k : K} (hf : f k zero = zero) :
    get zero k (mapVals zero f es) = f k (get zero k es) := by
  induction es with
  | nil => simp [mapVals, get, hf]
  | cons e es ih =>
    obtain ⟨he, hs⟩ := List.pairwise_cons.1 hs
    have hlow : ∀ x ∈ mapVals zero f es, cmp e.1 x.1 = .lt := fun x hx => by
      obtain ⟨a, ha, hk⟩ := key_of_mem_mapVals hx
      exact hk ▸ he a ha
    have hzero : get zero e.1 (mapVals zero f es) = zero := get_below hlow
    have step : mapVals zero f (e :: es)
        = consNonzero zero e.1 (f e.1 e.2) (mapVals zero f es) := rfl
    rw [step, get_consNonzero hzero, ih hs, get]
    split
    · next hk => rw [← hk]
    · rfl

end MapVals

end Entries
end Meadow
