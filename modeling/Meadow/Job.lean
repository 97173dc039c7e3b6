import Meadow.CommandLine.Arguments
import Meadow.Lines.Backspace
import Meadow.Session
import Meadow.Settings

set_option autoImplicit false

/-!
# Jobs

A command line, with the files that it refers to, makes a job: a session, a list of
expressions to prove, or a list of lines to test.  The configuration is read before
the files with expressions, and these are read before anything is proven.
-/

namespace Meadow

/-! ## Files -/

/-- Why a file is not read. -/
inductive ReadError where
  | missing
  | directory
  | notDirectory
  | notText
  | other (message : String)
  deriving DecidableEq, Repr

/-- The text of the error. -/
def ReadError.message : ReadError → String
  | missing => "No such file or directory (os error 2)"
  | directory => "Is a directory (os error 21)"
  | notDirectory => "Not a directory (os error 20)"
  | notText => "stream did not contain valid UTF-8"
  | other message => message

/-- What reading a file of a given path results in. -/
abbrev Files := String → Except ReadError String

/-- The configuration that is read if none is named. -/
def standardConfig : String := "foxi.toml"

/-! ## Errors -/

/-- Why a run ends before its job begins. -/
inductive RunError where
  | config (path : String) (e : ReadError)
  | malformedConfig (path : String)
  | configLimit (e : VariableLimit.Error)
  | expressions (path : String) (e : ReadError)
  deriving DecidableEq, Repr

/-- The text of the error. -/
def RunError.message : RunError → String
  | config path e => "failed to read config file " ++ path ++ ": " ++ e.message
  | malformedConfig path => "failed to parse config file " ++ path
  | configLimit e => Config.limitMessage e
  | expressions path e => "failed to read expression file " ++ path ++ ": " ++ e.message

/-! ## Preparation -/

/-- What is to be done. -/
inductive Job where
  | session (settings : Settings)
  | prove (settings : Settings) (expressions : List String)
  | test (settings : Settings) (lines : List String)
  deriving DecidableEq, Repr

namespace Job

/-- Read the configuration of a given path. -/
def readConfig (files : Files) (path : String) : Except RunError Config :=
  match files path with
  | .error e => .error (.config path e)
  | .ok content =>
    match Config.parse content with
    | .ok c => .ok c
    | .error .malformed => .error (.malformedConfig path)
    | .error (.limit e) => .error (.configLimit e)

/-- The configuration: the one that is named, or else the standard one if that is a
file. -/
def config (files : Files) : Option String → Except RunError Config
  | some path => readConfig files path
  | none =>
    match files standardConfig with
    | .error .missing | .error .directory => .ok .empty
    | _ => readConfig files standardConfig

/-- The expressions of all files in order. -/
def expressions (files : Files) : List String → Except RunError (List String)
  | [] => .ok []
  | path :: paths =>
    match files path with
    | .error e => .error (.expressions path e)
    | .ok content => do return Lines.expressions content ++ (← expressions files paths)

/-- The job that a command line asks for. -/
def ofOptions (files : Files) (terminal : Bool) (o : Options) : Except RunError Job := do
  let settings := Settings.merge o (← config files o.config) terminal
  if o.isInteractive then return session settings
  let lines ← expressions files settings.files
  return if settings.test then test settings lines else prove settings lines

/-! ## Results -/

/-- What a job writes, and its exit code. -/
structure Result where
  output : List String
  exitCode : Nat
  deriving DecidableEq, Repr

/-- The exit code of a session that breaks off. -/
def brokenOff : Nat := 101

/-- The lines of a session as they are after backspaces.  The session breaks off at a line
where these fail. -/
def edited : List String → List String
  | [] => []
  | line :: lines =>
    match Lines.takeBack line with
    | some line => line :: edited lines
    | none => []

/-- Do a job.  The lines of input are those of a session, as they were sent. -/
def result (input : List String) : Job → Result
  | session s =>
    let lines := edited input
    ⟨Session.answers s.maxVariables s.style lines,
      if lines.length = input.length then 0 else brokenOff⟩
  | prove s expressions => ⟨s.style.linesOfAll (proveAll s.maxVariables expressions), 0⟩
  | test s lines =>
    let checked := CheckedLine.ofLines s.maxVariables lines
    ⟨s.style.linesOfAll (CheckedLine.recordsOfAll s.debug checked),
      (CheckedLine.tally checked).exitCode⟩

end Job
end Meadow
