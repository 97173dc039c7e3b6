import Meadow.CommandLine.Options
import Meadow.Config.Basic
import Meadow.Output.Style

set_option autoImplicit false

/-!
# The settings of a run

The command line goes before the configuration, and the configuration before the
built-in values.
-/

namespace Meadow

/-- The settings of a run. -/
structure Settings where
  files : List String
  debug : Bool
  test : Bool
  quiet : Bool
  json : Bool
  color : Bool
  histfile : String
  maxVariables : Nat
  deriving DecidableEq, Repr

namespace Settings

/-- The file for the history of sessions where none is named. -/
def standardHistfile : String := "./.foxi-history"

/-- Merge a command line and a configuration.  Only a terminal gets colors. -/
def merge (o : Options) (c : Config) (terminal : Bool) : Settings where
  files := o.files
  debug := o.debug
  test := o.test
  quiet := o.quiet
  json := o.json
  color := terminal && !o.noColor && c.color.getD true
  histfile := (o.histfile.or c.histfile).getD standardHistfile
  maxVariables := (o.maxVariables.or c.maxVariables).getD VariableLimit.standard

/-- The style of the output. -/
def style (s : Settings) : Style := .ofFlags s.json s.debug s.quiet s.color

end Settings
end Meadow
