import Meadow.VariableLimit

set_option autoImplicit false

/-!
# Command line options

A flag is an option without a value; the others have one.  Each may be given once, by
its long name or by its letter if it has one.
-/

namespace Meadow

/-- Options without a value. -/
inductive Flag where
  | debug
  | test
  | quiet
  | json
  | noColor
  | help
  | version
  deriving DecidableEq, Repr

/-- Options with a value. -/
inductive Setting where
  | histfile
  | maxVariables
  | config
  deriving DecidableEq, Repr

/-- An option of the command line. -/
inductive Switch where
  | flag (f : Flag)
  | setting (s : Setting)
  deriving DecidableEq, Repr

namespace Switch

/-- The option with a long name. -/
def ofName? : String → Option Switch
  | "debug" => some (flag .debug)
  | "test" => some (flag .test)
  | "quiet" => some (flag .quiet)
  | "json" => some (flag .json)
  | "no-color" => some (flag .noColor)
  | "help" => some (flag .help)
  | "version" => some (flag .version)
  | "histfile" => some (setting .histfile)
  | "max-variables" => some (setting .maxVariables)
  | "config" => some (setting .config)
  | _ => none

/-- The option with a letter. -/
def ofLetter? : Char → Option Switch
  | 'd' => some (flag .debug)
  | 't' => some (flag .test)
  | 'q' => some (flag .quiet)
  | 'h' => some (flag .help)
  | 'V' => some (flag .version)
  | 'H' => some (setting .histfile)
  | _ => none

end Switch

/-- What a command line asks for. -/
structure Options where
  files : List String
  debug : Bool
  test : Bool
  histfile : Option String
  quiet : Bool
  json : Bool
  noColor : Bool
  maxVariables : Option Nat
  config : Option String
  deriving DecidableEq, Repr

/-- Why a command line is refused. -/
inductive UsageError where
  | unknownOption
  /-- An option that is given twice. -/
  | repeatedOption
  | missingValue
  | emptyPath
  /-- A limit that is none. -/
  | badLimit (e : VariableLimit.Error)
  /-- A value for a flag. -/
  | flagWithValue
  deriving DecidableEq, Repr

/-- Why a command line does not lead to a run. -/
inductive Stop where
  | help
  | version
  | usage (e : UsageError)
  deriving DecidableEq, Repr

namespace Options

/-- The command line without any argument. -/
def empty : Options := ⟨[], false, false, none, false, false, false, none, none⟩

/-- Without files to read, input comes from the user. -/
def isInteractive (o : Options) : Bool := o.files.isEmpty

/-- A path as it is given. -/
def path (p : String) : Except Stop String :=
  if p.isEmpty then .error (.usage .emptyPath) else .ok p

/-- Add files. -/
def addFiles (o : Options) (paths : List String) : Except Stop Options := do
  let files ← paths.mapM path
  return { o with files := o.files ++ files }

/-- Is a flag given? -/
def has (o : Options) : Flag → Bool
  | .debug => o.debug
  | .test => o.test
  | .quiet => o.quiet
  | .json => o.json
  | .noColor => o.noColor
  | .help | .version => false

/-- Add a flag. -/
def addFlag (o : Options) (f : Flag) : Except Stop Options :=
  if o.has f then .error (.usage .repeatedOption)
  else
    match f with
    | .debug => .ok { o with debug := true }
    | .test => .ok { o with test := true }
    | .quiet => .ok { o with quiet := true }
    | .json => .ok { o with json := true }
    | .noColor => .ok { o with noColor := true }
    | .help => .error .help
    | .version => .error .version

/-- Is an option with a value given? -/
def hasSetting (o : Options) : Setting → Bool
  | .histfile => o.histfile.isSome
  | .maxVariables => o.maxVariables.isSome
  | .config => o.config.isSome

/-- Add an option with its value. -/
def addSetting (o : Options) (s : Setting) (value : String) : Except Stop Options :=
  if o.hasSetting s then .error (.usage .repeatedOption)
  else
    match s with
    | .histfile => do return { o with histfile := some (← path value) }
    | .config => do return { o with config := some (← path value) }
    | .maxVariables =>
      match VariableLimit.parse value with
      | .ok n => .ok { o with maxVariables := some n }
      | .error e => .error (.usage (.badLimit e))

end Options
end Meadow
