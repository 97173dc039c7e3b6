import Mathlib
import Meadow.Job
import Meadow.Proofs.CaseSplit
import Meadow.Proofs.Output.Decoding

set_option autoImplicit false

/-!
# Reading JSON output

Output in JSON is read line by line: a line is decoded, and the members of its object, in
whatever order they are, make a record (`Record.ofJson?`).  What comes back are exactly the
records that were written, one from each line, and an empty line behind every answer of a
session (`Job.jsonOutput_decodes`).  No key stands twice in an object: the members on an outcome
join those on a report, and the variables of a counterexample are told once each.
-/

namespace Meadow

/-! ## Objects -/

namespace JsonValue

/-- No object has a key twice, be it the value or one in it. -/
inductive DistinctKeys : JsonValue → Prop
  | null : DistinctKeys null
  | boolean (b : Bool) : DistinctKeys (boolean b)
  | number (n : ℕ) : DistinctKeys (number n)
  | string (s : String) : DistinctKeys (string s)
  | object {members : List (String × JsonValue)} (hkeys : (members.map Prod.fst).Nodup)
      (hvalues : ∀ m ∈ members, DistinctKeys m.2) : DistinctKeys (object members)

/-- The value of a key. -/
def at? (key : String) : JsonValue → Option JsonValue
  | object members => members.lookup key
  | _ => none

def asString? : JsonValue → Option String
  | string s => some s
  | _ => none

def asNumber? : JsonValue → Option ℕ
  | number n => some n
  | _ => none

def asBoolean? : JsonValue → Option Bool
  | boolean b => some b
  | _ => none

/-- What may be null. -/
def orNull? {α : Type} (read : JsonValue → Option α) : JsonValue → Option (Option α)
  | null => some none
  | v => (read v).map some

/-- The string of a key that may be left out. -/
def optionalString? (key : String) (v : JsonValue) : Option (Option String) :=
  match v.at? key with
  | none => some none
  | some w => w.asString?.map some

end JsonValue

/-! ## Records -/

/-- The assumption of a given name. -/
def VariableCase.ofLabel? (name : String) : Option VariableCase :=
  [zero, nonzero].find? (·.label = name)

/-- The expectation of a given name. -/
def Expectation.ofLabel? (name : String) : Option Expectation := all.find? (·.label = name)

/-- The variable of a member, with what is assumed of it. -/
def Case.assumption? (m : String × JsonValue) : Option (String × VariableCase) :=
  (m.2.asString?.bind VariableCase.ofLabel?).map (m.1, ·)

/-- The case that an object is. -/
def Case.ofJson? : JsonValue → Option Case
  | .object members => (members.mapM assumption?).map Case.mk
  | _ => none

/-- The outcome that is told in an object. -/
def Outcome.ofJson? (v : JsonValue) : Option Outcome := do
  match ← (← v.at? "outcome").asString? with
  | "proven" => return .proven
  | "refuted" =>
    return .refuted (← Case.ofJson? (← v.at? "counterexample"))
      (← (← v.at? "residue").asString?)
  | "simplified" => return .simplified (← (← v.at? "form").asString?)
  | "error" => return .error (← (← v.at? "message").asString?)
  | _ => none

/-- The report that is told in an object. -/
def Report.ofJson? (v : JsonValue) : Option Report :=
  return ⟨← (← v.at? "input").asString?, ← v.optionalString? "equation",
    ← v.optionalString? "smf", ← Outcome.ofJson? v⟩

/-- The test case that is told in an object. -/
def TestCase.ofJson? (v : JsonValue) : Option TestCase :=
  return ⟨← (← v.at? "index").asNumber?, ← (← v.at? "total").asNumber?,
    ← (← v.at? "line").asString?,
    ← (← v.at? "expected").orNull? fun w => w.asString?.bind Expectation.ofLabel?,
    ← (← v.at? "expression").asString?, ← (← v.at? "verdict").orNull? JsonValue.asBoolean?,
    ← (← v.at? "passed").asBoolean?⟩

/-- The tally that is told in an object, if the failures are as many as they have to be. -/
def Tally.ofJson? (v : JsonValue) : Option Tally := do
  let t : Tally := ⟨← (← v.at? "succeeded").asNumber?, ← (← v.at? "total").asNumber?⟩
  if (← (← v.at? "failed").asNumber?) = t.failed then return t else none

/-- The record that an object is. -/
def Record.ofJson? (v : JsonValue) : Option Record := do
  match ← (← v.at? "type").asString? with
  | "report" => return .report (← Report.ofJson? v)
  | "test_case" => return .testCase (← TestCase.ofJson? v)
  | "summary" => return .summary (← Tally.ofJson? v)
  | _ => none

/-! ## Reading what was written -/

open JsonValue (DistinctKeys optionalMember)

theorem Expectation.ofLabel?_label (e : Expectation) : ofLabel? e.label = some e := by
  cases e <;> decide

theorem VariableCase.ofLabel?_label (a : VariableCase) : ofLabel? a.label = some a := by
  cases a <;> decide

theorem Case.ofJson?_toJson (c : Case) : ofJson? c.toJson = some c := by
  have hmapM (l : List (String × VariableCase)) :
      (l.map fun v => (v.1, JsonValue.string v.2.label)).mapM assumption? = some l := by
    induction l with
    | nil => rfl
    | cons v l ih =>
      rw [List.map_cons, List.mapM_cons, ih, assumption?, JsonValue.asString?, Option.bind_some,
        VariableCase.ofLabel?_label]
      rfl
  rw [toJson, ofJson?, hmapM]
  rfl

theorem JsonValue.lookup_cons (key key' : String) (v : JsonValue)
    (members : List (String × JsonValue)) :
    ((key, v) :: members).lookup key' = if key' = key then some v else members.lookup key' := by
  rw [List.lookup_cons, beq_eq_decide]
  by_cases h : key' = key <;> simp [h]

theorem JsonValue.lookup_optionalMember (key key' : String) (value : Option String) :
    (optionalMember key value).lookup key' = if key' = key then value.map string else none := by
  cases value with
  | none => simp [optionalMember]
  | some s => exact lookup_cons key key' (string s) []

theorem JsonValue.optionalString?_of_at? {key : String} {v : JsonValue} {value : Option String}
    (h : v.at? key = value.map string) : v.optionalString? key = some value := by
  rw [optionalString?, h]
  cases value <;> rfl

/-- The members on an outcome are read from any object that they are members of. -/
theorem Outcome.ofJson?_of_at? {o : Outcome} {v : JsonValue}
    (h : ∀ key ∈ o.members.map Prod.fst, v.at? key = o.members.lookup key) :
    ofJson? v = some o := by
  cases o with
  | proven =>
    have houtcome : v.at? "outcome" = some (.string "proven") := h _ (by simp [members])
    rw [ofJson?, houtcome]
    rfl
  | refuted c residue =>
    have houtcome : v.at? "outcome" = some (.string "refuted") := h _ (by simp [members])
    have hcase : v.at? "counterexample" = some c.toJson := h _ (by simp [members])
    have hresidue : v.at? "residue" = some (.string residue) := h _ (by simp [members])
    have hread := Case.ofJson?_toJson c
    rw [ofJson?, houtcome, hcase, hresidue]
    simp [JsonValue.asString?, hread]
  | simplified form =>
    have houtcome : v.at? "outcome" = some (.string "simplified") := h _ (by simp [members])
    have hform : v.at? "form" = some (.string form) := h _ (by simp [members])
    rw [ofJson?, houtcome, hform]
    rfl
  | error message =>
    have houtcome : v.at? "outcome" = some (.string "error") := h _ (by simp [members])
    have hmessage : v.at? "message" = some (.string message) := h _ (by simp [members])
    rw [ofJson?, houtcome, hmessage]
    rfl

/-- No member on an outcome gets in the way of those on a report. -/
theorem Outcome.not_mem_keys (o : Outcome) :
    ∀ key ∈ ["type", "input", "equation", "smf"], key ∉ o.members.map Prod.fst := by
  cases o <;> simp [members]

/-- What is found under the keys of a report. -/
theorem Record.at?_toJson_report (r : Report) (key : String) :
    (Record.report r).toJson.at? key =
      if key = "type" then some (.string "report")
      else if key = "input" then some (.string r.input)
      else if key = "equation" then r.equation.map .string
      else if key = "smf" then r.standardForm.map .string
      else r.outcome.members.lookup key := by
  have hnone (key : String) (hkey : key ∈ ["type", "input", "equation", "smf"]) :
      r.outcome.members.lookup key = none := by
    refine List.lookup_eq_none_iff.2 fun m hm => bne_iff_ne.2 ?_
    rintro rfl
    exact r.outcome.not_mem_keys _ hkey (List.mem_map_of_mem hm)
  rw [toJson, JsonValue.at?, Report.members, JsonValue.lookup_cons, List.cons_append,
    List.cons_append, JsonValue.lookup_cons, List.lookup_append, List.lookup_append,
    JsonValue.lookup_optionalMember, JsonValue.lookup_optionalMember]
  split_ifs with htype hinput hequation hsmf hsmf
  · rfl
  · rfl
  · exact absurd (hequation.symm.trans hsmf) (by decide)
  · rw [hnone key (by simp [hequation]), Option.or_none, Option.or_none]
  · rw [hnone key (by simp [hsmf]), Option.none_or, Option.or_none]
  · rfl

theorem Report.ofJson?_toJson (r : Report) : ofJson? (Record.report r).toJson = some r := by
  have hinput := Record.at?_toJson_report r "input"
  have hequation : (Record.report r).toJson.optionalString? "equation" = some r.equation :=
    JsonValue.optionalString?_of_at? (Record.at?_toJson_report r "equation")
  have hsmf : (Record.report r).toJson.optionalString? "smf" = some r.standardForm :=
    JsonValue.optionalString?_of_at? (Record.at?_toJson_report r "smf")
  have houtcome : Outcome.ofJson? (Record.report r).toJson = some r.outcome := by
    refine Outcome.ofJson?_of_at? fun key hkey => ?_
    have hne (key' : String) (hkey' : key' ∈ ["type", "input", "equation", "smf"]) :
        key ≠ key' := by
      rintro rfl
      exact r.outcome.not_mem_keys key hkey' hkey
    rw [Record.at?_toJson_report, if_neg (hne _ (by decide)), if_neg (hne _ (by decide)),
      if_neg (hne _ (by decide)), if_neg (hne _ (by decide))]
  rw [ofJson?, hinput, hequation, hsmf, houtcome]
  rfl

theorem TestCase.ofJson?_toJson (c : TestCase) : ofJson? (Record.testCase c).toJson = some c := by
  have hexpected : ((JsonValue.ofString? (c.expected.map Expectation.label)).orNull?
      fun w => w.asString?.bind Expectation.ofLabel?) = some c.expected := by
    cases c.expected with
    | none => rfl
    | some e => cases e <;> rfl
  have hverdict : (JsonValue.ofBool? c.verdict).orNull? JsonValue.asBoolean? = some c.verdict := by
    cases c.verdict <;> rfl
  calc ofJson? (Record.testCase c).toJson
    _ = (do
        let expected ← (JsonValue.ofString? (c.expected.map Expectation.label)).orNull?
          fun w => w.asString?.bind Expectation.ofLabel?
        let verdict ← (JsonValue.ofBool? c.verdict).orNull? JsonValue.asBoolean?
        return ⟨c.index, c.total, c.line, expected, c.expression, verdict, c.passed⟩) := rfl
    _ = some c := by rw [hexpected, hverdict]; rfl

theorem Tally.ofJson?_toJson (t : Tally) : ofJson? (Record.summary t).toJson = some t := by
  calc ofJson? (Record.summary t).toJson
    _ = if t.total - t.succeeded = t.failed then some t else none := rfl
    _ = some t := if_pos rfl

theorem Record.ofJson?_toJson (r : Record) : ofJson? r.toJson = some r := by
  cases r with
  | report r =>
    have htype : (Record.report r).toJson.at? "type" = some (.string "report") := rfl
    rw [ofJson?, htype, Report.ofJson?_toJson]
    rfl
  | testCase c =>
    have htype : (Record.testCase c).toJson.at? "type" = some (.string "test_case") := rfl
    rw [ofJson?, htype, TestCase.ofJson?_toJson]
    rfl
  | summary t =>
    have htype : (Record.summary t).toJson.at? "type" = some (.string "summary") := rfl
    rw [ofJson?, htype, Tally.ofJson?_toJson]
    rfl

/-! ## Keys -/

/-- If there is a counterexample, it tells each of its variables once. -/
def Outcome.DistinctVars : Outcome → Prop
  | refuted c _ => (c.cases.map Prod.fst).Nodup
  | proven | simplified _ | error _ => True

/-- If there is a counterexample in a record, it tells each of its variables once. -/
def Record.DistinctVars : Record → Prop
  | report r => r.outcome.DistinctVars
  | testCase _ | summary _ => True

theorem Case.distinctKeys_toJson {c : Case} (h : (c.cases.map Prod.fst).Nodup) :
    c.toJson.DistinctKeys := by
  refine .object ?_ ?_
  · rwa [List.map_map]
  · simp only [List.forall_mem_map]
    exact fun v _ => .string _

theorem JsonValue.distinctKeys_of_mem_optionalMember {key : String} {value : Option String}
    {m : String × JsonValue} (h : m ∈ optionalMember key value) : DistinctKeys m.2 := by
  obtain ⟨s, -, rfl⟩ := List.mem_map.1 h
  exact .string s

theorem Outcome.distinctKeys_of_mem_members {o : Outcome} (h : o.DistinctVars) :
    ∀ m ∈ o.members, DistinctKeys m.2 := by
  cases o with
  | proven => simp [members, DistinctKeys.string]
  | refuted c residue => simp [members, DistinctKeys.string, Case.distinctKeys_toJson h]
  | simplified form => simp [members, DistinctKeys.string]
  | error message => simp [members, DistinctKeys.string]

theorem Outcome.nodup_keys (o : Outcome) : (o.members.map Prod.fst).Nodup := by
  cases o <;> simp [members]

/-- The keys of a report are some of the keys that there are for it. -/
theorem Report.nodup_keys (r : Report) : ("type" :: r.members.map Prod.fst).Nodup := by
  have hoptional (key : String) (value : Option String) :
      ((optionalMember key value).map Prod.fst).Sublist [key] := by
    cases value <;> simp [optionalMember]
  have hsublist : ("type" :: r.members.map Prod.fst).Sublist
      (["type", "input", "equation", "smf"] ++ r.outcome.members.map Prod.fst) := by
    rw [members, List.map_append, List.map_append, List.map_cons]
    exact (((hoptional _ _).cons_cons "input").append (hoptional _ _)).append_right _ |>.cons_cons _
  refine hsublist.nodup (List.nodup_append'.2 ⟨by decide, r.outcome.nodup_keys, ?_⟩)
  exact fun key hkey => r.outcome.not_mem_keys key hkey

/-- No key stands twice in the object of a record. -/
theorem Record.distinctKeys_toJson {r : Record} (h : r.DistinctVars) : r.toJson.DistinctKeys := by
  cases r with
  | report r =>
    refine .object r.nodup_keys ?_
    simp only [Report.members, List.forall_mem_cons, List.forall_mem_append]
    exact ⟨.string _, ⟨⟨.string _, fun m => JsonValue.distinctKeys_of_mem_optionalMember⟩,
      fun m => JsonValue.distinctKeys_of_mem_optionalMember⟩,
      Outcome.distinctKeys_of_mem_members h⟩
  | testCase c =>
    refine .object (by simp [TestCase.members]) ?_
    have hexpected (o : Option String) : DistinctKeys (.ofString? o) := by
      cases o <;> constructor
    have hverdict (o : Option Bool) : DistinctKeys (.ofBool? o) := by
      cases o <;> constructor
    simp [TestCase.members, DistinctKeys.string, DistinctKeys.number, DistinctKeys.boolean,
      hexpected, hverdict]
  | summary t =>
    refine .object (by simp [Tally.members]) ?_
    simp [Tally.members, DistinctKeys.string, DistinctKeys.number]

/-- The counterexample to an equation is a case of its variables, each of them once. -/
theorem distinctVars_prove (limit : ℕ) (input : String) :
    (prove limit input).outcome.DistinctVars := by
  unfold prove
  split
  · trivial
  · trivial
  · next e _ =>
    dsimp only
    split
    · trivial
    · next d hd =>
      cases d with
      | proven => trivial
      | refuted c residue =>
        obtain ⟨⟨n, rfl⟩, -⟩ := Form.eval_of_refuted hd
        change ((Case.ofNumber e.difference.vars n).cases.map Prod.fst).Nodup
        rw [Case.map_fst_ofNumber]
        exact FinSupp.nodup_keys _

/-! ## Lines -/

namespace Lines

/-- The text of lines, with a line feed behind each of them. -/
def text (lines : List String) : String :=
  String.ofList (lines.flatMap fun l => l.toList ++ ['\n'])

theorem splitChars_append {line rest : List Char} (h : '\n' ∉ line) :
    splitChars (line ++ '\n' :: rest) = line :: splitChars rest := by
  induction line with
  | nil => rfl
  | cons c line ih =>
    obtain ⟨hc, hline⟩ := not_or.1 (mt List.mem_cons.2 h)
    rw [List.cons_append, splitChars, if_neg (Ne.symm hc), ih hline, List.modifyHead_cons]

theorem split_text {lines : List String} (h : ∀ line ∈ lines, '\n' ∉ line.toList) :
    split (text lines) = lines ++ [""] := by
  rw [split, text, String.toList_ofList]
  induction lines with
  | nil => rfl
  | cons line lines ih =>
    obtain ⟨hline, hlines⟩ := List.forall_mem_cons.1 h
    rw [List.flatMap_cons, List.append_assoc, List.singleton_append, splitChars_append hline,
      List.map_cons, ih hlines, String.ofList_toList, List.cons_append]

/-- The lines of a text are those that it was made of. -/
theorem ofText_text {lines : List String} (h : ∀ line ∈ lines, '\n' ∉ line.toList) :
    ofText (text lines) = lines := by
  rw [ofText, split_text h]
  simp

end Lines

/-- What a line of output holds: nothing, or the text of an object that tells a record and
has no repeated keys.  By the grammar the text denotes this object only, and it decodes to it. -/
inductive Holds : Option Record → String → Prop
  | nothing : Holds none ""
  | record {r : Record} {line : String} {v : JsonValue} (hline : '\n' ∉ line.toList)
      (htext : ∀ w : JsonValue, w.IsText line ↔ w = v)
      (hdecode : JsonValue.decode? line = some v) (hkeys : v.DistinctKeys)
      (hread : Record.ofJson? v = some r) : Holds (some r) line

theorem Record.holds_render {r : Record} (h : r.DistinctVars) :
    Holds (some r) r.toJson.render := by
  have htext := JsonValue.isText_render r.toJson
  refine .record (JsonValue.not_mem_toList_render _) (fun w => ⟨fun hw => hw.unique htext, ?_⟩)
    htext.decode?_eq (distinctKeys_toJson h) (ofJson?_toJson r)
  rintro rfl
  exact htext

theorem Holds.not_mem_toList {item : Option Record} {line : String} (h : Holds item line) :
    '\n' ∉ line.toList := by
  cases h with
  | nothing => simp
  | record hline => exact hline

theorem not_mem_toList_of_forall₂_holds {items : List (Option Record)} {lines : List String}
    (h : List.Forall₂ Holds items lines) : ∀ line ∈ lines, '\n' ∉ line.toList := by
  induction h with
  | nil => exact List.forall_mem_nil _
  | cons hline _ ih => exact List.forall_mem_cons.2 ⟨hline.not_mem_toList, ih⟩

/-! ## Jobs -/

namespace Style

/-- The records that are written: all but the test cases that quiet output leaves out. -/
def written (s : Style) (rs : List Record) : List Record :=
  rs.filter fun r => !(s.verbosity = .quiet && r.isPassingCase)

theorem linesOfAll_json {s : Style} (h : s.format = .json) (rs : List Record) :
    s.linesOfAll rs = (s.written rs).map fun r => r.toJson.render := by
  induction rs with
  | nil => rfl
  | cons r rs ih =>
    rw [linesOfAll, List.flatMap_cons, ← linesOfAll, ih, written, written, List.filter_cons,
      lines, h]
    cases decide (s.verbosity = .quiet) && r.isPassingCase <;> simp

theorem written_eq_self {s : Style} {rs : List Record} (h : ∀ r ∈ rs, r.isPassingCase = false) :
    s.written rs = rs :=
  List.filter_eq_self.2 fun r hr => by simp [h r hr]

/-- Records that are written in JSON are held by the lines in order. -/
theorem forall₂_holds_linesOfAll {s : Style} (h : s.format = .json) {rs : List Record}
    (hrs : ∀ r ∈ rs, r.DistinctVars) :
    List.Forall₂ Holds ((s.written rs).map some) (s.linesOfAll rs) := by
  rw [linesOfAll_json h, List.forall₂_map_left_iff, List.forall₂_map_right_iff,
    List.forall₂_same]
  exact fun r hr => Record.holds_render (hrs r (List.mem_of_mem_filter hr))

end Style

theorem distinctVars_of_mem_proveAll {limit : ℕ} {expressions : List String} {r : Record}
    (h : r ∈ proveAll limit expressions) : r.DistinctVars := by
  obtain ⟨e, -, rfl⟩ := List.mem_map.1 h
  exact distinctVars_prove limit e

theorem CheckedLine.distinctVars_of_mem_records {limit index total : ℕ} {line : String}
    {withReport : Bool} {r : Record}
    (h : r ∈ (ofLine limit index total line).records withReport) : r.DistinctVars := by
  have hreport : ∀ r ∈ (ofLine limit index total line).report, r.outcome.DistinctVars := by
    unfold ofLine
    split
    · simp
    · simp [distinctVars_prove]
  rw [records, List.mem_append] at h
  obtain hr | hr := h
  · split at hr
    · obtain ⟨report, hmem, rfl⟩ := List.mem_map.1 hr
      exact hreport report (Option.mem_toList.1 hmem)
    · exact absurd hr List.not_mem_nil
  · cases List.mem_singleton.1 hr
    trivial

theorem CheckedLine.distinctVars_of_mem_recordsOfAll {limit : ℕ} {lines : List String}
    {withReports : Bool} {r : Record}
    (h : r ∈ recordsOfAll withReports (ofLines limit lines)) : r.DistinctVars := by
  rw [recordsOfAll, ofLines, List.flatMap_map, List.mem_append, List.mem_flatMap] at h
  obtain ⟨l, -, hr⟩ | hr := h
  · exact distinctVars_of_mem_records hr
  · cases List.mem_singleton.1 hr
    trivial

namespace Job

/-- The settings of a job. -/
def settings : Job → Settings
  | session s | prove s _ | test s _ => s

/-- What the answer to a line of input is: the record on its expression, if there is one, and
then nothing (`none`). -/
def answerItems (limit : ℕ) (line : String) : List (Option Record) :=
  (proveAll limit (Session.expression? line).toList).map some ++ [none]

/-- What a job writes: the records in order, and nothing behind every answer of a session. -/
def items (input : List String) : Job → List (Option Record)
  | session s => (edited input).flatMap (answerItems s.maxVariables)
  | prove s expressions => (proveAll s.maxVariables expressions).map some
  | test s lines => (s.style.written
      (CheckedLine.recordsOfAll s.debug (CheckedLine.ofLines s.maxVariables lines))).map some

theorem forall₂_holds_proveAll {s : Style} (h : s.format = .json) (limit : ℕ)
    (expressions : List String) : List.Forall₂ Holds ((proveAll limit expressions).map some)
      (s.linesOfAll (proveAll limit expressions)) := by
  have hwritten : s.written (proveAll limit expressions) = proveAll limit expressions := by
    refine Style.written_eq_self fun r hr => ?_
    obtain ⟨e, -, rfl⟩ := List.mem_map.1 hr
    rfl
  have hvars : ∀ r ∈ proveAll limit expressions, r.DistinctVars := fun r =>
    distinctVars_of_mem_proveAll
  have hholds := Style.forall₂_holds_linesOfAll h hvars
  rwa [hwritten] at hholds

/-- The lines that answer a line of input hold its answer. -/
theorem forall₂_holds_answer {s : Style} (h : s.format = .json) (limit : ℕ) (line : String) :
    List.Forall₂ Holds (answerItems limit line) (Session.answer limit s line) := by
  have hanswer : Session.answer limit s line =
      s.linesOfAll (proveAll limit (Session.expression? line).toList) ++ [""] := by
    rw [Session.answer]
    cases Session.expression? line <;> simp [proveAll, Style.linesOfAll]
  rw [hanswer]
  exact List.rel_append (forall₂_holds_proveAll h limit _) (.cons .nothing .nil)

/-- The lines of a session hold the answers so far. -/
theorem forall₂_holds_answers {s : Style} (h : s.format = .json) (limit : ℕ)
    (input : List String) :
    List.Forall₂ Holds (input.flatMap (answerItems limit)) (Session.answers limit s input) := by
  rw [Session.answers]
  induction input with
  | nil => exact .nil
  | cons line input ih => exact List.rel_append (forall₂_holds_answer h limit line) ih

/-- The lines of the output hold what is written in order. -/
theorem forall₂_holds {job : Job} (h : job.settings.json = true) (input : List String) :
    List.Forall₂ Holds (job.items input) (job.result input).output := by
  have hformat : job.settings.style.format = .json := by
    rw [Settings.style, Style.ofFlags, h]
    rfl
  cases job with
  | session s => exact forall₂_holds_answers hformat s.maxVariables (edited input)
  | prove s expressions => exact forall₂_holds_proveAll hformat s.maxVariables expressions
  | test s lines =>
    exact Style.forall₂_holds_linesOfAll hformat fun r =>
      CheckedLine.distinctVars_of_mem_recordsOfAll

/-- What a job with JSON output writes falls into lines, each of which is an object without
repeated keys that tells a record, or, behind an answer of a session, empty.  The records that
are read are those that were written, one from each line in order. -/
theorem jsonOutput_decodes {job : Job} (hjson : job.settings.json = true) (input : List String) :
    let output := (job.result input).output
    Lines.ofText (Lines.text output) = output ∧
    List.Forall₂ Holds (job.items input) (Lines.ofText (Lines.text output)) := by
  have hholds := forall₂_holds hjson input
  intro output
  rw [Lines.ofText_text (not_mem_toList_of_forall₂_holds hholds)]
  exact ⟨rfl, hholds⟩

/-- A session in which a line is refuted, and quotes, backslashes and control characters of
another come back as they were. -/
theorem jsonOutput_decodes_session :
    let job := session ⟨[], false, false, false, true, false, "history", 16⟩
    let input := ["x = 0", "\"\\\x01"]
    job.settings.json = true ∧
    (job.result input).output =
      ["\x7b\"type\":\"report\",\"input\":\"x = 0\",\"equation\":\"(x) = 0\",\"smf\":\"(x)\"," ++
        "\"outcome\":\"refuted\",\"counterexample\":\x7b\"x\":\"nonzero\"\x7d," ++
        "\"residue\":\"1\"\x7d",
      "",
      "\x7b\"type\":\"report\",\"input\":\"\\\"\\\\\\u0001\",\"outcome\":\"error\"," ++
        "\"message\":\"Invalid character '\\\"' at position 0\"\x7d",
      ""] ∧
    Lines.ofText (Lines.text (job.result input).output) = (job.result input).output ∧
    List.Forall₂ Holds
      [some (.report ⟨"x = 0", some "(x) = 0", some "(x)",
        .refuted ⟨[("x", .nonzero)]⟩ "1"⟩), none,
      some (.report ⟨"\"\\\x01", none, none,
        .error "Invalid character '\"' at position 0"⟩), none]
      (Lines.ofText (Lines.text (job.result input).output)) := by
  intro job input
  have hjson : job.settings.json = true := rfl
  obtain ⟨hlines, hholds⟩ := jsonOutput_decodes hjson input
  have hitems : job.items input =
      [some (.report ⟨"x = 0", some "(x) = 0", some "(x)",
        .refuted ⟨[("x", .nonzero)]⟩ "1"⟩), none,
      some (.report ⟨"\"\\\x01", none, none,
        .error "Invalid character '\"' at position 0"⟩), none] := by
    decide +kernel
  rw [hitems] at hholds
  exact ⟨hjson, by decide +kernel, hlines, hholds⟩

end Job
end Meadow
