import Meadow.Stored.Program

set_option autoImplicit false

/-!
# The command line program

The thin layer around `Stored.run`: it reads the files that a command line refers to, the
input and the state of the terminal, and writes what is answered.  A session is
answered line by line, as the input comes.  Sums of exponents wrap around.
-/

namespace Meadow.Main

/-- What the user is asked at a terminal. -/
def prompt : String := "Expression (^D to quit): "

/-- The reason for which the system refuses to read a file. -/
def readError : IO.Error → ReadError
  | .noFileOrDirectory .. => .missing
  | .inappropriateType _ code _ => if code = 20 then .notDirectory else .directory
  | e => .other (toString e)

/-- Read a file. -/
def readFile (path : String) : IO (Except ReadError String) := do
  match ← (IO.FS.readBinFile path).toBaseIO with
  | .error e => return .error (readError e)
  | .ok bytes => return (String.fromUTF8? bytes).elim (.error .notText) .ok

/-- Read the files of given paths once and for all. -/
def snapshot (paths : List String) : IO Files := do
  let contents ← paths.mapM fun p => do return (p, ← readFile p)
  return fun path => (contents.lookup path).getD (.error .missing)

/-- Write lines. -/
def writeLines (lines : List String) : IO Unit := do
  let output ← IO.getStdout
  for line in lines do
    output.putStrLn line
  output.flush

/-- Answer the lines of the input one by one, and give the expressions among them, or
nothing if the session breaks off. -/
partial def session (s : Settings) (ask : Bool) (done : Array String) :
    IO (Option (Array String)) := do
  if ask then
    (← IO.getStdout).putStr prompt
    (← IO.getStdout).flush
  let line ← (← IO.getStdin).getLine
  if line.isEmpty then return done
  let some line := Lines.takeBack ((Lines.ofText line).headD "") | return none
  let some answer := (Stored.answer s.maxVariables s.style line).value? .wrapping | return none
  writeLines answer
  session s ask ((Session.expression? line).elim done done.push)

/-- Add the expressions of a session to its history, which may fail silently. -/
def remember (path : String) (expressions : Array String) : IO Unit := do
  let write : IO Unit := do
    let file ← IO.FS.Handle.mk path .append
    for e in expressions do
      file.putStrLn e
  discard write.toBaseIO

/-- Write a response and give the exit code. -/
def respond (r : Response) : IO UInt32 := do
  writeLines r.output
  for complaint in r.complaint.toList do
    IO.eprintln complaint
  return r.exitCode.toUInt32

/-- Do what the options ask for. -/
def runOptions (o : Options) : IO UInt32 := do
  let files ← snapshot (o.config.getD standardConfig :: o.files)
  match Job.ofOptions files (← (← IO.getStdout).isTty) o with
  | .error e => respond (.ofRunError e)
  | .ok (.session s) =>
    let some expressions ← session s (← (← IO.getStdin).isTty) #[]
      | return Job.brokenOff.toUInt32
    remember s.histfile expressions
    return 0
  | .ok job =>
    let some result := (Stored.result [] job).value? .wrapping | return Job.brokenOff.toUInt32
    respond (.ofResult result)

end Meadow.Main

/-- Run the program with its command line arguments. -/
def main (args : List String) : IO UInt32 :=
  match Meadow.Options.ofArguments args with
  | .error stop => Meadow.Main.respond (.ofStop stop)
  | .ok options => Meadow.Main.runOptions options
