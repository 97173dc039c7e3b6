import Meadow.CommandLine.Options

set_option autoImplicit false

/-!
# Reading the arguments of a command line

Arguments are read from left to right.  One that starts with two dashes is a long
option, which may have a value attached by an equals sign; one that starts with a
single dash is a row of letters, of which the last may have a value attached or not;
and everything else is the value of the option before it, or a file.  Two dashes
alone make files of all arguments that follow.

A value that is not attached and files are checked when the next option comes, so
an option that does not exist goes before a bad value to its left.
-/

namespace Meadow

/-- What is read but not yet checked. -/
inductive Unchecked where
  | nothing
  /-- An option, and its value if that has come. -/
  | setting (s : Setting) (value : Option String)
  | files (paths : List String)
  deriving DecidableEq, Repr

/-- What is made of the arguments so far. -/
structure Reading where
  options : Options
  unchecked : Unchecked
  deriving DecidableEq, Repr

namespace Reading

def start : Reading := ⟨.empty, .nothing⟩

def unknown {α : Type} : Except Stop α := .error (.usage .unknownOption)

/-- Check what is not yet checked. -/
def settle (r : Reading) : Except Stop Options :=
  match r.unchecked with
  | .nothing => .ok r.options
  | .setting s (some value) => r.options.addSetting s value
  | .setting _ none => .error (.usage .missingValue)
  | .files paths => r.options.addFiles paths

/-- Take in a flag. -/
def flag (r : Reading) (f : Flag) : Except Stop Reading := do
  return ⟨← (← r.settle).addFlag f, .nothing⟩

/-- Take in an option with its value, which is still to come if it is not attached. -/
def setting (r : Reading) (s : Setting) : Option String → Except Stop Reading
  | none => do return ⟨← r.settle, .setting s none⟩
  | some value => do return ⟨← (← r.settle).addSetting s value, .nothing⟩

/-- Take in a long option without its dashes. -/
def long (r : Reading) (cs : List Char) : Except Stop Reading :=
  let name := cs.takeWhile (· != '=')
  let value := (cs.dropWhile (· != '=')).tail?.map String.ofList
  match Switch.ofName? (String.ofList name), value with
  | none, _ => unknown
  | some (.setting s), value => r.setting s value
  | some (.flag f), none => r.flag f
  | some (.flag _), some _ => .error (.usage .flagWithValue)

/-- The value that is attached to a letter. -/
def attached? : List Char → Option String
  | [] => none
  | '=' :: value => some (String.ofList value)
  | value => some (String.ofList value)

/-- Take in a row of letters. -/
def letters (r : Reading) : List Char → Except Stop Reading
  | [] => .ok r
  | c :: cs =>
    match Switch.ofLetter? c with
    | none => unknown
    | some (.setting s) => r.setting s (attached? cs)
    | some (.flag f) => do (← r.flag f).letters cs

/-- Take in a file. -/
def file (r : Reading) (path : String) : Except Stop Reading :=
  match r.unchecked with
  | .files paths => .ok { r with unchecked := .files (paths ++ [path]) }
  | _ => do return ⟨← r.settle, .files [path]⟩

/-- Take in an argument that is no option. -/
def word (r : Reading) (arg : String) : Except Stop Reading :=
  match r.unchecked with
  | .setting s none => .ok { r with unchecked := .setting s (some arg) }
  | _ => r.file arg

/-- Take in all arguments. -/
def read (r : Reading) : List String → Except Stop Reading
  | [] => .ok r
  | arg :: args =>
    match arg.toList with
    | ['-', '-'] => args.foldlM file r
    | '-' :: '-' :: cs => do (← r.long cs).read args
    | '-' :: c :: cs => do (← r.letters (c :: cs)).read args
    | _ => do (← r.word arg).read args

end Reading

/-- The options that the arguments of a command line give. -/
def Options.ofArguments (args : List String) : Except Stop Options := do
  (← Reading.start.read args).settle

end Meadow
