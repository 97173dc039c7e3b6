import Meadow.Job

set_option autoImplicit false

/-!
# The accounts of a test run

A test run goes through its lines once.  At every line it counts a case and writes it, with
the report before it if reports are asked for (`TestRun.check`).  After any number of lines,
what is counted and written is about exactly these lines (`TestRun.accounts_checkAll`), so
that the tally, the exit code and the output of a whole run are in step
(`TestRun.accounting`), whatever the style.
-/

namespace Meadow

/-- A line passes: it is a test line, and its expression gets the verdict that it expects. -/
def Passes (limit : Nat) (line : String) : Prop :=
  ∃ t, t ∈ TestLine.parse? line ∧
    (prove limit t.expression).verdict = t.expectation.verdict

instance (limit : Nat) : DecidablePred (Passes limit) := fun line =>
  inferInstanceAs (Decidable (∃ t, t ∈ TestLine.parse? line ∧ _))

namespace CheckedLine

variable {limit index total : Nat} {line : String}

@[simp] theorem index_case_ofLine : (ofLine limit index total line).case.index = index := by
  unfold ofLine
  split <;> rfl

@[simp] theorem total_case_ofLine : (ofLine limit index total line).case.total = total := by
  unfold ofLine
  split <;> rfl

@[simp] theorem line_case_ofLine : (ofLine limit index total line).case.line = line := by
  unfold ofLine
  split <;> rfl

/-- A test case is marked as passed exactly if its line passes. -/
theorem passed_case_ofLine :
    (ofLine limit index total line).case.passed = true ↔ Passes limit line := by
  unfold ofLine Passes
  cases TestLine.parse? line with
  | none => simp
  | some t =>
    dsimp only
    rw [beq_iff_eq]
    simp only [Option.mem_def, Option.some.injEq, exists_eq_left']
    exact eq_comm

end CheckedLine

/-! ## The run -/

/-- A test run between two lines: what is counted and what is written so far. -/
structure TestRun where
  tally : Tally
  output : List String

namespace TestRun

section Run

variable (limit : Nat) (style : Style) (withReports : Bool)

/-- Check a line, given with the number of lines before it: count it and write it. -/
def check (total : Nat) (run : TestRun) (line : String × Nat) : TestRun :=
  let checked := CheckedLine.ofLine limit (line.2 + 1) total line.1
  ⟨run.tally.record checked.case.passed,
    run.output ++ style.linesOfAll (checked.records withReports)⟩

/-- Check lines in order, out of so many. -/
def checkAll (total : Nat) (lines : List String) : TestRun :=
  lines.zipIdx.foldl (check limit style withReports total) ⟨.empty, []⟩

/-- The run through all lines, which a summary closes. -/
def ofLines (lines : List String) : TestRun :=
  let run := checkAll limit style withReports lines.length lines
  ⟨run.tally, run.output ++ style.lines (.summary run.tally)⟩

/-- What is counted and written is about the given lines. -/
structure Accounts (total : Nat) (lines : List String) (run : TestRun) : Prop where
  total_eq : run.tally.total = lines.length
  succeeded_eq : run.tally.succeeded = lines.countP fun line => decide (Passes limit line)
  output_eq : run.output = style.linesOfAll (lines.zipIdx.flatMap fun line =>
    (CheckedLine.ofLine limit (line.2 + 1) total line.1).records withReports)

end Run

variable {limit : Nat} {style : Style} {withReports : Bool} {total : Nat}

/-- Checking one more line keeps the accounts. -/
theorem Accounts.check {lines : List String} {run : TestRun}
    (h : Accounts limit style withReports total lines run) (line : String) :
    Accounts limit style withReports total (lines ++ [line])
      (run.check limit style withReports total (line, lines.length)) := by
  refine ⟨?_, ?_, ?_⟩
  · rw [List.length_append, ← h.total_eq]
    rfl
  · rw [List.countP_append, ← h.succeeded_eq, List.countP_singleton]
    have hpassed : (CheckedLine.ofLine limit (lines.length + 1) total line).case.passed = true
        ↔ Passes limit line := CheckedLine.passed_case_ofLine
    by_cases hline : Passes limit line
    · simp [TestRun.check, Tally.record, hpassed.2 hline, hline]
    · simp [TestRun.check, Tally.record, Bool.not_eq_true _ ▸ mt hpassed.1 hline, hline]
  · rw [List.zipIdx_append, List.flatMap_append, Style.linesOfAll, List.flatMap_append,
      ← Style.linesOfAll, ← h.output_eq]
    simp [TestRun.check, Style.linesOfAll]

theorem Accounts.foldl_check {lines : List String} {run : TestRun}
    (h : Accounts limit style withReports total lines run) (rest : List String) :
    Accounts limit style withReports total (lines ++ rest)
      ((rest.zipIdx lines.length).foldl (TestRun.check limit style withReports total) run) := by
  induction rest generalizing lines run with
  | nil => rwa [List.append_nil]
  | cons line rest ih =>
    have hrest := ih (h.check line)
    rw [List.length_append, List.append_assoc] at hrest
    exact hrest

/-- The accounts are in order at any moment of a run. -/
theorem accounts_checkAll (limit : Nat) (style : Style) (withReports : Bool) (total : Nat)
    (lines : List String) :
    Accounts limit style withReports total lines
      (checkAll limit style withReports total lines) := by
  have hstart : Accounts limit style withReports total [] ⟨.empty, []⟩ := ⟨rfl, rfl, rfl⟩
  exact hstart.foldl_check lines

theorem tally_checkAll (total : Nat) (lines : List String) :
    (checkAll limit style withReports total lines).tally =
      .ofList (lines.zipIdx.map fun line =>
        (CheckedLine.ofLine limit (line.2 + 1) total line.1).case.passed) := by
  rw [Tally.ofList, List.foldl_map]
  exact (List.foldl_hom TestRun.tally fun _ _ => rfl).symm

/-- The run counts and writes what is counted and written about its checked lines. -/
theorem ofLines_eq (lines : List String) :
    let checked := CheckedLine.ofLines limit lines
    ofLines limit style withReports lines = ⟨CheckedLine.tally checked,
      style.linesOfAll (CheckedLine.recordsOfAll withReports checked)⟩ := by
  have htally : (checkAll limit style withReports lines.length lines).tally =
      CheckedLine.tally (CheckedLine.ofLines limit lines) := by
    rw [tally_checkAll, CheckedLine.tally, CheckedLine.ofLines, List.map_map]
    rfl
  have houtput := (accounts_checkAll limit style withReports lines.length lines).output_eq
  dsimp only [ofLines]
  rw [htally, houtput, CheckedLine.recordsOfAll, CheckedLine.ofLines, List.flatMap_map,
    Style.linesOfAll, Style.linesOfAll, List.flatMap_append, List.flatMap_singleton]

end TestRun

/-! ## What is shown -/

namespace Style

variable {s : Style}

theorem outcomeLines_ne_nil (r : Report) : s.outcomeLines r ≠ [] := by
  unfold outcomeLines
  cases r.outcome <;> simp

theorem textLines_ne_nil (r : Record) : s.textLines r ≠ [] := by
  cases r with
  | report r => simp [textLines, outcomeLines_ne_nil]
  | testCase c => simp [textLines]
  | summary t => simp [textLines]

/-- Nothing is left out but the test cases that pass, and these only in quiet output. -/
theorem lines_eq_nil_iff {r : Record} :
    s.lines r = [] ↔ s.verbosity = .quiet ∧ r.isPassingCase = true := by
  unfold lines
  split
  · next h => simpa using h
  · next h =>
    cases s.format with
    | text => simpa [textLines_ne_nil] using h
    | json => simpa using h

theorem length_lines_summary (t : Tally) : (s.lines (.summary t)).length = 1 := by
  cases hf : s.format <;> simp [lines, Record.isPassingCase, textLines, hf]

/-- The test cases that are shown: all of them, or those that fail. -/
def shown (s : Style) (cases : List TestCase) : List TestCase :=
  if s.verbosity = .quiet then cases.filter fun c => !c.passed else cases

theorem mem_shown_iff {cases : List TestCase} {c : TestCase} :
    c ∈ s.shown cases ↔ c ∈ cases ∧ s.lines (.testCase c) ≠ [] := by
  rw [Ne, lines_eq_nil_iff, shown]
  split
  · next h => simp [h, Record.isPassingCase]
  · next h => simp [h]

/-- What is not shown makes no lines. -/
theorem flatMap_shown (cases : List TestCase) :
    (s.shown cases).flatMap (fun c => s.lines (.testCase c))
      = cases.flatMap fun c => s.lines (.testCase c) := by
  rw [shown]
  split
  · next h =>
    induction cases with
    | nil => rfl
    | cons c cases ih =>
      rw [List.filter_cons, List.flatMap_cons]
      cases hc : c.passed with
      | false => rw [Bool.not_false, if_pos rfl, List.flatMap_cons, ih]
      | true =>
        have hnil : s.lines (.testCase c) = [] := lines_eq_nil_iff.2 ⟨h, hc⟩
        rw [Bool.not_true, if_neg Bool.false_ne_true, hnil, List.nil_append, ih]
  · rfl

end Style

/-! ## The whole run -/

namespace Tally

theorem exitCode_eq_zero_iff {t : Tally} : t.exitCode = 0 ↔ t.failed = 0 := by
  unfold exitCode
  omega

end Tally

namespace TestRun

variable {limit : Nat} {style : Style} {withReports : Bool}

theorem succeeded_le_total (total : Nat) (lines : List String) :
    (checkAll limit style withReports total lines).tally.succeeded
      ≤ (checkAll limit style withReports total lines).tally.total := by
  have h := accounts_checkAll limit style withReports total lines
  rw [h.succeeded_eq, h.total_eq]
  exact List.countP_le_length

/-- The failures are the lines that do not pass. -/
theorem failed_checkAll (total : Nat) (lines : List String) :
    (checkAll limit style withReports total lines).tally.failed
      = lines.countP fun line => decide (¬ Passes limit line) := by
  have h := accounts_checkAll limit style withReports total lines
  have hlength : lines.length = lines.countP (fun line => decide (Passes limit line))
      + lines.countP fun line => decide (¬ Passes limit line) := by
    simpa only [decide_eq_true_eq] using
      List.length_eq_countP_add_countP fun line => decide (Passes limit line)
  rw [Tally.failed, h.total_eq, h.succeeded_eq, hlength]
  omega

/-- The lines of a checked line: its report, if asked for, and then its case. -/
theorem linesOfAll_records (c : CheckedLine) :
    style.linesOfAll (c.records withReports) =
      (if withReports then c.report.toList.flatMap fun r => style.lines (.report r) else [])
        ++ style.lines (.testCase c.case) := by
  cases withReports with
  | false => simp [CheckedLine.records, Style.linesOfAll]
  | true => simp [CheckedLine.records, Style.linesOfAll, List.flatMap_map]

/-- The cases are those of the lines in order, numbered from 1. -/
theorem getElem?_cases (lines : List String) (i : Nat) :
    ((CheckedLine.ofLines limit lines).map (·.case))[i]?.map
        (fun c => (c.index, c.total, c.line, c.passed))
      = lines[i]?.map fun line => (i + 1, lines.length, line, decide (Passes limit line)) := by
  rw [CheckedLine.ofLines, List.map_map, List.getElem?_map, List.getElem?_zipIdx,
    Option.map_map, Option.map_map]
  cases lines[i]? with
  | none => rfl
  | some line =>
    have hpassed : (CheckedLine.ofLine limit (i + 1) lines.length line).case.passed
        = decide (Passes limit line) :=
      Bool.eq_iff_iff.2 (CheckedLine.passed_case_ofLine.trans decide_eq_true_iff.symm)
    simp [hpassed]

/-- A test run counts all lines, and as succeeded those that pass, in any style and with or
without reports; the exit code is the number of the others, as far as it goes.  What is
written are the test cases in the order of the lines, in quiet output those that fail, each
behind the report on it if reports are asked for, and then one line with the tally.  This is
what a test job leaves behind. -/
theorem accounting (limit : Nat) (style : Style) (withReports : Bool) (lines : List String) :
    let checked := CheckedLine.ofLines limit lines
    let cases := checked.map (·.case)
    let run := ofLines limit style withReports lines
    run.tally.total = lines.length ∧
    run.tally.succeeded = lines.countP (fun line => decide (Passes limit line)) ∧
    (∀ n, (checkAll limit style withReports lines.length (lines.take n)).tally.succeeded ≤
      (checkAll limit style withReports lines.length (lines.take n)).tally.total) ∧
    run.tally.exitCode = min 255 (lines.countP fun line => decide (¬ Passes limit line)) ∧
    (run.tally.exitCode = 0 ↔ ∀ line ∈ lines, Passes limit line) ∧
    (∀ style' withReports', (ofLines limit style' withReports' lines).tally = run.tally) ∧
    (∀ i, cases[i]?.map (fun c => (c.index, c.total, c.line, c.passed))
      = lines[i]?.map fun line => (i + 1, lines.length, line, decide (Passes limit line))) ∧
    run.output = (checked.flatMap fun c =>
      (if withReports then c.report.toList.flatMap fun r => style.lines (.report r) else [])
        ++ style.lines (.testCase c.case)) ++ style.lines (.summary run.tally) ∧
    (ofLines limit style false lines).output
      = (style.shown cases).flatMap (fun c => style.lines (.testCase c))
        ++ style.lines (.summary run.tally) ∧
    (∀ c, c ∈ style.shown cases ↔ c ∈ cases ∧ style.lines (.testCase c) ≠ []) ∧
    (style.lines (.summary run.tally)).length = 1 ∧
    ∀ (s : Settings) (input : List String), (Job.test s lines).result input =
      ⟨(ofLines s.maxVariables s.style s.debug lines).output,
        (ofLines s.maxVariables s.style s.debug lines).tally.exitCode⟩ := by
  intro checked cases run
  have haccounts := accounts_checkAll limit style withReports lines.length lines
  have hfailed : run.tally.failed = lines.countP fun line => decide (¬ Passes limit line) :=
    failed_checkAll lines.length lines
  have htally (style' : Style) (withReports' : Bool) :
      (ofLines limit style' withReports' lines).tally = CheckedLine.tally checked := by
    rw [ofLines_eq]
  have houtput (withReports' : Bool) : (ofLines limit style withReports' lines).output
      = (checked.flatMap fun c => style.linesOfAll (c.records withReports'))
        ++ style.lines (.summary run.tally) := by
    rw [ofLines_eq, htally style withReports]
    simp only [CheckedLine.recordsOfAll, Style.linesOfAll, List.flatMap_append,
      List.flatMap_assoc, List.flatMap_singleton]
    rfl
  refine ⟨haccounts.total_eq, haccounts.succeeded_eq, fun n => succeeded_le_total _ _, ?_, ?_,
    fun style' withReports' => by rw [htally, htally], getElem?_cases lines, ?_, ?_,
    fun c => Style.mem_shown_iff, Style.length_lines_summary _, fun s input => ?_⟩
  · rw [Tally.exitCode, hfailed, Nat.min_comm]
  · rw [Tally.exitCode_eq_zero_iff, hfailed, List.countP_eq_zero]
    simp
  · rw [houtput]
    simp only [linesOfAll_records]
  · rw [houtput, Style.flatMap_shown, List.flatMap_map]
    simp only [linesOfAll_records, Bool.false_eq_true, if_false, List.nil_append]
  · rw [ofLines_eq]
    rfl

/-- A line that passes, one with the wrong verdict, and one that is no test line. -/
example : (ofLines 16 ⟨.text, .quiet, false⟩ false
    ["TRUE x = x", "TRUE x / x = 1", "MAYBE y = y"]).output =
    ["ERROR Expression \"x / x = 1\" expected to be TRUE", "2/3\tfail  TRUE x / x = 1",
      "ERROR Malformed test line \"MAYBE y = y\", expected TRUE, FALSE or ERROR",
      "3/3\tfail  MAYBE y = y", "1 / 3 tests succeeded!"] := by
  decide +kernel

end TestRun
end Meadow
