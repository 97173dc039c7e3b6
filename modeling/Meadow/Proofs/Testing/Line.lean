import Mathlib
import Meadow.Proofs.Token.Lexing
import Meadow.Testing.Line

set_option autoImplicit false

/-!
# How test lines split

The white space behind the label of a test line may also belong to the expression, so a line
can split in several ways.  They all give the same expression, which is trimmed, and the line
is read as it if there is such a way (`TestLine.parse?_iff_parts`).  The way taken is the
first one of a search in which the white space, and then the expression, reach as far as they
can (`TestLine.ways`).
-/

namespace Meadow

namespace Lines

/-- White space in front of a text is trimmed. -/
theorem trimChars_append {bs : List Char} (hbs : ∀ c ∈ bs, Unicode.isBlank c = true)
    (cs : List Char) : trimChars (bs ++ cs) = trimChars cs := by
  rw [trimChars, List.dropWhile_append_of_pos hbs, trimChars]

end Lines

theorem Expectation.mem_all (e : Expectation) : e ∈ all := by
  cases e <;> decide

namespace TestLine

/-! ## Parts of a line -/

/-- What may stand behind the label: white space, and a text with no line feed in it. -/
structure Parts (gap text : List Char) : Prop where
  gap_ne_nil : gap ≠ []
  isBlank_gap : ∀ c ∈ gap, Unicode.isBlank c = true
  text_ne_nil : text ≠ []
  lineFeed_not_mem : '\n' ∉ text

/-- The gap that is taken reaches at least as far as any other, and what it takes off the
text is only white space. -/
theorem Parts.expression?_eq {gap text : List Char} (h : Parts gap text) :
    expression? (gap ++ text) = some (String.ofList (Lines.trimChars text)) := by
  have htaken : (gap ++ text).dropLast.takeWhile Unicode.isBlank
      = gap ++ text.dropLast.takeWhile Unicode.isBlank := by
    rw [List.dropLast_append_of_ne_nil h.text_ne_nil, List.takeWhile_append_of_pos h.isBlank_gap]
  have hblank : ∀ c ∈ text.dropLast.takeWhile Unicode.isBlank, Unicode.isBlank c = true :=
    fun c hc => List.mem_takeWhile_imp hc
  obtain ⟨text', htext⟩ :=
    (List.takeWhile_prefix (p := Unicode.isBlank)).trans text.dropLast_prefix
  generalize text.dropLast.takeWhile Unicode.isBlank = taken at htaken hblank htext
  subst htext
  have hfeed : '\n' ∉ text' := fun hmem => h.lineFeed_not_mem (List.mem_append_right _ hmem)
  rw [expression?, htaken, Lines.trimChars_append hblank, ← List.append_assoc, List.drop_left]
  simp [h.gap_ne_nil, hfeed]

theorem exists_parts_of_expression? {rest : List Char} {x : String}
    (h : expression? rest = some x) : ∃ gap text, rest = gap ++ text ∧ Parts gap text ∧
      x = String.ofList (Lines.trimChars text) := by
  unfold expression? at h
  dsimp only at h
  split at h
  · cases h
  · next hcondition =>
    cases h
    rw [Bool.or_eq_true, not_or, Bool.not_eq_true, List.isEmpty_eq_false_iff,
      List.contains_iff_mem] at hcondition
    obtain ⟨hgap, htext⟩ := hcondition
    have hdropLast := List.takeWhile_prefix (p := Unicode.isBlank) (l := rest.dropLast)
    have hprefix := hdropLast.trans rest.dropLast_prefix
    have hlt : (rest.dropLast.takeWhile Unicode.isBlank).length < rest.length := by
      have hle := hdropLast.length_le
      have hpos := (List.length_pos_of_ne_nil hgap).trans_le hprefix.length_le
      rw [List.length_dropLast] at hle
      omega
    have htext_ne : rest.drop (rest.dropLast.takeWhile Unicode.isBlank).length ≠ [] := by
      rw [Ne, List.drop_eq_nil_iff]
      exact hlt.not_ge
    exact ⟨_, _, (List.prefix_iff_eq_append.1 hprefix).symm,
      ⟨hgap, fun c hc => List.mem_takeWhile_imp hc, htext_ne, htext⟩, rfl⟩

/-! ## Labels -/

/-- A line starts with at most one of the labels. -/
theorem label_unique {e e' : Expectation} {cs cs' : List Char}
    (h : e.label.toList ++ cs = e'.label.toList ++ cs') : e = e' ∧ cs = cs' := by
  have hhead (d : Expectation) (ds : List Char) :
      (d.label.toList ++ ds).head? = d.label.toList.head? := by
    cases d <;> rfl
  have heq : e.label.toList.head? = e'.label.toList.head? := by
    rw [← hhead e cs, h, hhead]
  have hsame : e = e' := by
    cases e <;> cases e' <;> first | rfl | exact absurd heq (by decide)
  subst hsame
  exact ⟨rfl, List.append_cancel_left h⟩

theorem ofChars?_eq_some_iff {line : List Char} {e : Expectation} {t : TestLine} :
    ofChars? line e = some t ↔ ∃ rest x, line = e.label.toList ++ rest ∧
      expression? rest = some x ∧ t = ⟨e, x⟩ := by
  rw [ofChars?, Option.bind_eq_some_iff]
  simp only [List.isPrefixOf?_eq_some_iff_append_eq, Option.map_eq_some_iff]
  constructor
  · rintro ⟨rest, rfl, x, hx, rfl⟩
    exact ⟨rest, x, rfl, hx, rfl⟩
  · rintro ⟨rest, x, rfl, hx, rfl⟩
    exact ⟨rest, rfl, x, hx, rfl⟩

theorem parse?_eq_some_iff {line : String} {t : TestLine} :
    parse? line = some t ↔ ∃ rest, line.toList = t.expectation.label.toList ++ rest ∧
      expression? rest = some t.expression := by
  constructor
  · intro h
    obtain ⟨e, -, he⟩ := List.exists_of_findSome?_eq_some h
    obtain ⟨rest, x, hline, hx, rfl⟩ := ofChars?_eq_some_iff.1 he
    exact ⟨rest, hline, hx⟩
  · rintro ⟨rest, hline, hx⟩
    have ht := ofChars?_eq_some_iff.2 ⟨rest, _, hline, hx, rfl⟩
    cases hparse : parse? line with
    | none =>
      rw [List.findSome?_eq_none_iff.1 hparse _ t.expectation.mem_all] at ht
      cases ht
    | some t' =>
      obtain ⟨e, -, he⟩ := List.exists_of_findSome?_eq_some hparse
      obtain ⟨rest', x', hline', hx', rfl⟩ := ofChars?_eq_some_iff.1 he
      obtain ⟨rfl, rfl⟩ := label_unique (hline.symm.trans hline')
      rw [hx] at hx'
      cases hx'
      rfl

/-! ## The search -/

/-- The stretches of a class that characters start with, each with what follows it, the
longest first. -/
def stretches (p : Char → Bool) : List Char → List (List Char × List Char)
  | [] => []
  | c :: cs => if p c then (stretches p cs).map (fun s => (c :: s.1, s.2)) ++ [([c], cs)] else []

theorem mem_stretches_iff {p : Char → Bool} {cs xs ys : List Char} :
    (xs, ys) ∈ stretches p cs ↔ cs = xs ++ ys ∧ xs ≠ [] ∧ ∀ c ∈ xs, p c = true := by
  induction cs generalizing xs with
  | nil =>
    refine iff_of_false List.not_mem_nil ?_
    rintro ⟨hnil, hxs, -⟩
    exact hxs (List.append_eq_nil_iff.1 hnil.symm).1
  | cons c cs ih =>
    unfold stretches
    split
    · next hc =>
      rw [List.mem_append, List.mem_map, List.mem_singleton]
      constructor
      · rintro (⟨⟨zs, ys⟩, hzs, heq⟩ | heq)
        · cases heq
          obtain ⟨rfl, -, hall⟩ := ih.1 hzs
          exact ⟨rfl, List.cons_ne_nil _ _, List.forall_mem_cons.2 ⟨hc, hall⟩⟩
        · cases heq
          exact ⟨rfl, List.cons_ne_nil _ _, List.forall_mem_singleton.2 hc⟩
      · rintro ⟨hcs, hne, hall⟩
        cases xs with
        | nil => exact absurd rfl hne
        | cons x xs =>
          obtain ⟨rfl, rfl⟩ := List.cons.inj hcs
          cases xs with
          | nil => exact Or.inr rfl
          | cons x' xs =>
            refine Or.inl ⟨_, ih.2 ⟨rfl, List.cons_ne_nil _ _, ?_⟩, rfl⟩
            exact (List.forall_mem_cons.1 hall).2
    · next hc =>
      refine iff_of_false List.not_mem_nil ?_
      rintro ⟨hcs, hne, hall⟩
      cases xs with
      | nil => exact hne rfl
      | cons x xs =>
        obtain ⟨rfl, -⟩ := List.cons.inj hcs
        exact hc (hall _ List.mem_cons_self)

/-- The ways in which a line splits into a label, white space and a text that goes on to its
end, in the order in which a search tries them. -/
def ways (line : List Char) : List (Expectation × List Char) :=
  Expectation.all.flatMap fun e =>
    (e.label.toList.isPrefixOf? line).toList.flatMap fun rest =>
      (stretches Unicode.isBlank rest).flatMap fun gap =>
        ((stretches (· != '\n') gap.2).filter fun text => text.2.isEmpty).map
          fun text => (e, text.1)

theorem mem_ways_iff {line text : List Char} {e : Expectation} :
    (e, text) ∈ ways line ↔ ∃ gap, line = e.label.toList ++ (gap ++ text) ∧ Parts gap text := by
  simp only [ways, List.mem_flatMap, Option.mem_toList,
    List.isPrefixOf?_eq_some_iff_append_eq, List.mem_map, List.mem_filter, Prod.exists]
  constructor
  · rintro ⟨e', -, rest, rfl, gap, tail, hgap, text', after, ⟨htext, hafter⟩, heq⟩
    cases heq
    obtain ⟨rfl, hne, hblank⟩ := mem_stretches_iff.1 hgap
    obtain ⟨rfl, hne', hfeed⟩ := mem_stretches_iff.1 htext
    rw [List.isEmpty_iff] at hafter
    subst hafter
    refine ⟨gap, by rw [List.append_nil], hne, hblank, hne', fun hmem => ?_⟩
    exact absurd (hfeed _ hmem) (by decide)
  · rintro ⟨gap, rfl, h⟩
    refine ⟨e, e.mem_all, _, rfl, gap, text,
      mem_stretches_iff.2 ⟨rfl, h.gap_ne_nil, h.isBlank_gap⟩, text, [],
      ⟨mem_stretches_iff.2 ⟨(List.append_nil _).symm, h.text_ne_nil, fun c hc => ?_⟩, rfl⟩, rfl⟩
    rw [bne_iff_ne]
    rintro rfl
    exact h.lineFeed_not_mem hc

/-! ## What a line is read as -/

theorem parse?_of_parts (e : Expectation) {gap text : String}
    (h : Parts gap.toList text.toList) :
    parse? (e.label ++ gap ++ text) = some ⟨e, Lines.trim text⟩ := by
  refine parse?_eq_some_iff.2 ⟨gap.toList ++ text.toList, ?_, h.expression?_eq⟩
  rw [String.toList_append, String.toList_append, List.append_assoc]

theorem exists_parts_of_parse? {line : String} {t : TestLine} (h : parse? line = some t) :
    ∃ gap text : String, line = t.expectation.label ++ gap ++ text ∧
      Parts gap.toList text.toList ∧ t.expression = Lines.trim text := by
  obtain ⟨rest, hline, hx⟩ := parse?_eq_some_iff.1 h
  obtain ⟨gap, text, rfl, hparts, hx⟩ := exists_parts_of_expression? hx
  refine ⟨String.ofList gap, String.ofList text, String.toList_inj.1 ?_, ?_, ?_⟩
  · rw [hline, String.toList_append, String.toList_append, String.toList_ofList,
      String.toList_ofList, List.append_assoc]
  · rwa [String.toList_ofList, String.toList_ofList]
  · rw [hx, Lines.trim, String.toList_ofList]

/-- A line is read as the first way in which a search splits it. -/
theorem parse?_eq_head?_ways (line : String) : parse? line =
    (ways line.toList).head?.map fun s => ⟨s.1, Lines.trim (String.ofList s.2)⟩ := by
  cases hways : ways line.toList with
  | nil =>
    cases hparse : parse? line with
    | none => rfl
    | some t =>
      obtain ⟨gap, text, hline, h, -⟩ := exists_parts_of_parse? hparse
      have hchars : line.toList
          = t.expectation.label.toList ++ (gap.toList ++ text.toList) := by
        rw [hline, String.toList_append, String.toList_append, List.append_assoc]
      have hmem := mem_ways_iff.2 ⟨gap.toList, hchars, h⟩
      rw [hways] at hmem
      cases hmem
  | cons s others =>
    have hmem : (s.1, s.2) ∈ ways line.toList := by
      rw [hways]
      exact List.mem_cons_self
    obtain ⟨gap, hline, h⟩ := mem_ways_iff.1 hmem
    have htrim : Lines.trim (String.ofList s.2) = String.ofList (Lines.trimChars s.2) := by
      rw [Lines.trim, String.toList_ofList]
    exact parse?_eq_some_iff.2
      ⟨gap ++ s.2, hline, h.expression?_eq.trans (congrArg some htrim.symm)⟩

/-- A line is a test line if it splits into a label, white space and a text with no line feed
in it.  However it splits, its expression is the text without white space around it, and so it
is for the first way that a search finds.  So a trimmed expression is read back. -/
theorem parse?_iff_parts :
    (∀ line e x, parse? line = some ⟨e, x⟩ ↔ ∃ gap text : String,
      line = e.label ++ gap ++ text ∧ Parts gap.toList text.toList ∧ x = Lines.trim text) ∧
    (∀ line e, ∀ gap text : String, line = e.label ++ gap ++ text →
      Parts gap.toList text.toList → parse? line = some ⟨e, Lines.trim text⟩) ∧
    (∀ line, parse? line =
      (ways line.toList).head?.map fun s => ⟨s.1, Lines.trim (String.ofList s.2)⟩) ∧
    ∀ (e : Expectation) (gap x : String), Parts gap.toList x.toList → Lines.trim x = x →
      parse? (e.label ++ gap ++ x) = some ⟨e, x⟩ := by
  refine ⟨fun line e x => ⟨exists_parts_of_parse?, ?_⟩, ?_, parse?_eq_head?_ways, ?_⟩
  · rintro ⟨gap, text, rfl, h, rfl⟩
    exact parse?_of_parts e h
  · rintro _ e gap text rfl h
    exact parse?_of_parts e h
  · intro e gap x h htrim
    rw [parse?_of_parts e h, htrim]

/-- Behind the label there may be a line feed, which belongs to no expression. -/
theorem parse?_iff_parts_lineFeed :
    Parts "\n ".toList "x / x = 1".toList ∧ Lines.trim "x / x = 1" = "x / x = 1" ∧
      parse? "FALSE\n x / x = 1" = some ⟨.refutation, "x / x = 1"⟩ := by
  have hparts : Parts "\n ".toList "x / x = 1".toList :=
    ⟨by decide, List.forall_mem_cons.2 ⟨by decide, isBlank_space⟩, by decide, by decide⟩
  have htrim : Lines.trim "x / x = 1" = "x / x = 1" := by decide +kernel
  exact ⟨hparts, htrim, parse?_iff_parts.2.2.2 .refutation "\n " "x / x = 1" hparts htrim⟩

end TestLine
end Meadow
