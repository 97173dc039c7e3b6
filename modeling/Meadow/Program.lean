import Meadow.CommandLine.Usage
import Meadow.Job

set_option autoImplicit false

/-!
# The program as a whole

What the program writes and how it exits, as a function of its arguments, the files
that it can read, and the lines of its input.
-/

namespace Meadow

/-- What a run of the program leaves behind: the lines of the output, what is written
on errors, and the exit code. -/
structure Response where
  output : List String
  complaint : Option String
  exitCode : Nat
  deriving DecidableEq, Repr

namespace Response

/-- The answer to a command line that leads to no job. -/
def ofStop : Stop → Response
  | .help => ⟨helpLines, none, 0⟩
  | .version => ⟨[versionLine], none, 0⟩
  | .usage e => ⟨[], some ("error: " ++ e.message ++ "\n\n" ++ usageLine), 2⟩

/-- The answer where a job cannot begin. -/
def ofRunError (e : RunError) : Response := ⟨[], some ("Error: " ++ e.message), 1⟩

/-- The answer of a job that is done. -/
def ofResult (r : Job.Result) : Response := ⟨r.output, none, r.exitCode⟩

end Response

/-- Run the program. -/
def run (files : Files) (terminal : Bool) (args input : List String) : Response :=
  match Options.ofArguments args with
  | .error stop => .ofStop stop
  | .ok options =>
    match Job.ofOptions files terminal options with
    | .error e => .ofRunError e
    | .ok job => .ofResult (job.result input)

end Meadow
