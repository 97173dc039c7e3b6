import Meadow.CommandLine.Options

set_option autoImplicit false

/-!
# What the command line says of itself
-/

namespace Meadow

/-- The name and the version of the program. -/
def versionLine : String := "foxi 0.1.0"

/-- How the program is called. -/
def usageLine : String := "Usage: foxi [OPTIONS] [FILE]..."

/-- The description of the options. -/
def helpLines : List String := [
  "Theorem prover in the theory of meadows",
  "",
  usageLine,
  "",
  "Arguments:",
  "  [FILE]...  Files to read expressions from, one per line. Empty lines and lines starting " ++
    "with a # are ignored. Without files, read from the terminal",
  "",
  "Options:",
  "  -d, --debug              Output intermediary steps, generates a lot of extra output",
  "  -t, --test               Each line of the input files starts with TRUE, FALSE or ERROR, " ++
    "the expected outcome of the expression",
  "  -H, --histfile <PATH>    File to write expression input history to " ++
    "[default: ./.foxi-history]",
  "  -q, --quiet              Only print failing tests and the summary",
  "      --json               Output results in JSON format, one object per line",
  "      --no-color           Disable colored output",
  "      --max-variables <N>  Refuse equations with more free variables than this " ++
    "[default: 16]",
  "      --config <PATH>      Configuration file [default: ./foxi.toml if present]",
  "  -h, --help               Print help",
  "  -V, --version            Print version"]

/-- The text of an error in the command line. -/
def UsageError.message : UsageError → String
  | unknownOption => "unexpected argument found"
  | repeatedOption => "an option cannot be used multiple times"
  | missingValue => "a value is required for an option but none was supplied"
  | emptyPath => "a value is required for a path but none was supplied"
  | badLimit e => "invalid value for '--max-variables <N>': " ++ e.message
  | flagWithValue => "unexpected value for an option found; no more were expected"

end Meadow
