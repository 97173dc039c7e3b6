import Mathlib
import Meadow.Job
import Meadow.Proofs.Steps

set_option autoImplicit false

/-!
# The limit in the settings

A limit for the number of variables is checked wherever one is taken in, on a command line
and in a configuration, and the standard one passes the same check.  So the limit in the
settings of a run is always in range (`Settings.limit_inRange`).
-/

namespace Meadow

namespace VariableLimit

/-- The limits that may be set. -/
def InRange (n : ℕ) : Prop := 1 ≤ n ∧ n ≤ largest

theorem inRange_standard : InRange standard := ⟨by decide, by decide⟩

theorem inRange_of_ofNat {m n : ℕ} (h : ofNat m = .ok n) : m = n ∧ InRange m := by
  unfold ofNat at h
  split at h
  · cases h
  · next hrange =>
    cases h
    exact ⟨rfl, by omega, by omega⟩

theorem inRange_of_parse {s : String} {n : ℕ} (h : parse s = .ok n) : InRange n := by
  unfold parse at h
  dsimp only at h
  split at h
  · cases h
  · split at h
    · obtain ⟨rfl, hrange⟩ := inRange_of_ofNat h
      exact hrange
    · cases h

end VariableLimit

/-! ## Configurations -/

theorem Config.inRange_of_parse {content : String} {c : Config} (h : parse content = .ok c) :
    ∀ n ∈ c.maxVariables, VariableLimit.InRange n := by
  unfold parse at h
  split at h
  · cases h
  · split at h
    · next hnone =>
      cases h
      simp [hnone]
    · next n hn =>
      split at h
      · cases h
      · next hlimit =>
        cases h
        rintro m hm
        rw [hn, Option.mem_some_iff] at hm
        subst hm
        exact (VariableLimit.inRange_of_ofNat hlimit).2

theorem Job.inRange_of_readConfig {files : Files} {path : String} {c : Config}
    (h : readConfig files path = .ok c) : ∀ n ∈ c.maxVariables, VariableLimit.InRange n := by
  unfold readConfig at h
  split at h
  · cases h
  · split at h
    · next hparse =>
      cases h
      exact Config.inRange_of_parse hparse
    · cases h
    · cases h

/-- The limit in a configuration, if there is one, is in range, also where no configuration is
named. -/
theorem Job.inRange_of_config {files : Files} {path : Option String} {c : Config}
    (h : config files path = .ok c) : ∀ n ∈ c.maxVariables, VariableLimit.InRange n := by
  unfold config at h
  split at h
  · exact inRange_of_readConfig h
  · split at h
    · cases h
      simp [Config.empty]
    · cases h
      simp [Config.empty]
    · exact inRange_of_readConfig h

/-! ## Command lines -/

namespace Options

/-- The limit on a command line, if there is one, is in range. -/
def InRange (o : Options) : Prop := ∀ n ∈ o.maxVariables, VariableLimit.InRange n

theorem inRange_empty : InRange empty := by
  simp [InRange, empty]

theorem InRange.addFiles {o o' : Options} {paths : List String} (ho : o.InRange)
    (h : o.addFiles paths = .ok o') : o'.InRange := by
  obtain ⟨files, -, hfiles⟩ := exists_of_bind_eq_ok h
  cases hfiles
  exact ho

theorem InRange.addFlag {o o' : Options} {f : Flag} (ho : o.InRange)
    (h : o.addFlag f = .ok o') : o'.InRange := by
  unfold Options.addFlag at h
  split at h
  · cases h
  · cases f <;> cases h <;> exact ho

theorem InRange.addSetting {o o' : Options} {s : Setting} {value : String} (ho : o.InRange)
    (h : o.addSetting s value = .ok o') : o'.InRange := by
  unfold Options.addSetting at h
  split at h
  · cases h
  · cases s with
    | histfile =>
      obtain ⟨p, -, hp⟩ := exists_of_bind_eq_ok h
      cases hp
      exact ho
    | config =>
      obtain ⟨p, -, hp⟩ := exists_of_bind_eq_ok h
      cases hp
      exact ho
    | maxVariables =>
      dsimp only at h
      split at h
      · next n hn =>
        cases h
        rintro m ⟨⟩
        exact VariableLimit.inRange_of_parse hn
      · cases h

end Options

namespace Reading

variable {r r' : Reading}

theorem inRange_settle {o : Options} (hr : r.options.InRange) (h : r.settle = .ok o) :
    o.InRange := by
  unfold settle at h
  split at h
  · cases h
    exact hr
  · exact hr.addSetting h
  · cases h
  · exact hr.addFiles h

theorem inRange_flag {f : Flag} (hr : r.options.InRange) (h : r.flag f = .ok r') :
    r'.options.InRange := by
  obtain ⟨o, hsettle, h⟩ := exists_of_bind_eq_ok h
  obtain ⟨o', hflag, h⟩ := exists_of_bind_eq_ok h
  cases h
  exact (inRange_settle hr hsettle).addFlag hflag

theorem inRange_setting {s : Setting} {value : Option String} (hr : r.options.InRange)
    (h : r.setting s value = .ok r') : r'.options.InRange := by
  cases value with
  | none =>
    obtain ⟨o, hsettle, h⟩ := exists_of_bind_eq_ok h
    cases h
    exact inRange_settle hr hsettle
  | some value =>
    obtain ⟨o, hsettle, h⟩ := exists_of_bind_eq_ok h
    obtain ⟨o', hsetting, h⟩ := exists_of_bind_eq_ok h
    cases h
    exact (inRange_settle hr hsettle).addSetting hsetting

theorem inRange_long {cs : List Char} (hr : r.options.InRange) (h : r.long cs = .ok r') :
    r'.options.InRange := by
  unfold long at h
  dsimp only at h
  split at h
  · cases h
  · exact inRange_setting hr h
  · exact inRange_flag hr h
  · cases h

theorem inRange_letters {cs : List Char} (hr : r.options.InRange) (h : r.letters cs = .ok r') :
    r'.options.InRange := by
  induction cs generalizing r with
  | nil =>
    cases h
    exact hr
  | cons c cs ih =>
    unfold letters at h
    split at h
    · cases h
    · exact inRange_setting hr h
    · obtain ⟨r₁, hflag, hrest⟩ := exists_of_bind_eq_ok h
      exact ih (inRange_flag hr hflag) hrest

theorem inRange_file {path : String} (hr : r.options.InRange) (h : r.file path = .ok r') :
    r'.options.InRange := by
  unfold file at h
  split at h
  · cases h
    exact hr
  · obtain ⟨o, hsettle, h⟩ := exists_of_bind_eq_ok h
    cases h
    exact inRange_settle hr hsettle

theorem inRange_word {arg : String} (hr : r.options.InRange) (h : r.word arg = .ok r') :
    r'.options.InRange := by
  unfold word at h
  split at h
  · cases h
    exact hr
  · exact inRange_file hr h

theorem inRange_read {args : List String} (hr : r.options.InRange) (h : r.read args = .ok r') :
    r'.options.InRange := by
  induction args generalizing r with
  | nil =>
    cases h
    exact hr
  | cons arg args ih =>
    unfold read at h
    split at h
    · exact of_foldlM_eq_ok (P := fun r => r.options.InRange)
        (fun _ _ _ hs hfile => inRange_file hs hfile) h hr
    · obtain ⟨r₁, hlong, hrest⟩ := exists_of_bind_eq_ok h
      exact ih (inRange_long hr hlong) hrest
    · obtain ⟨r₁, hletters, hrest⟩ := exists_of_bind_eq_ok h
      exact ih (inRange_letters hr hletters) hrest
    · obtain ⟨r₁, hword, hrest⟩ := exists_of_bind_eq_ok h
      exact ih (inRange_word hr hword) hrest

end Reading

theorem Options.inRange_of_ofArguments {args : List String} {o : Options}
    (h : ofArguments args = .ok o) : o.InRange := by
  obtain ⟨r, hread, hsettle⟩ := exists_of_bind_eq_ok h
  exact Reading.inRange_settle (Reading.inRange_read inRange_empty hread) hsettle

/-! ## Settings -/

/-- Whatever the command line and the configuration, the limit in the settings is in range. -/
theorem Settings.limit_inRange {o : Options} {c : Config} (ho : o.InRange)
    (hc : ∀ n ∈ c.maxVariables, VariableLimit.InRange n) (terminal : Bool) :
    VariableLimit.InRange (merge o c terminal).maxVariables := by
  unfold merge
  dsimp only
  cases hoptions : o.maxVariables with
  | some n => exact ho n hoptions
  | none =>
    rw [Option.none_or]
    cases hconfig : c.maxVariables with
    | some n => exact hc n hconfig
    | none => exact VariableLimit.inRange_standard

end Meadow
