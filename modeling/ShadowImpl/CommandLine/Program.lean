import ShadowImpl.CommandLine.Arguments
import ShadowImpl.CommandLine.Host
import ShadowImpl.Expansion.Basic
import ShadowImpl.Text.Utf8

/-!
# The program

A run reads one file, expands or checks it, and writes the result to the standard output or to a
file. Nothing is written when anything fails before. That a file cannot be read is caught and
reported; any other error of the host ends the run at once.
-/

namespace ShadowImpl.CommandLine

/-- The exit status where the arguments come to no run. -/
def Stop.status : Stop → Nat
  | help => 0
  | usage => 2

/-- The text of a file, with the line ends unified. -/
def decodeFile (bytes : List UInt8) : Except Utf8.Error String :=
  (Utf8.decode bytes).map fun cs => String.ofList (Text.unifyNewlines cs)

/-- What the options ask to be done with a text: the output, or the report on what is wrong. -/
def perform (o : Options) (text : String) : Except Report String :=
  let label := (PathName.of o.file).print
  let finish {α : Type} (outcome : Outcome α) (output : α → String) : Except Report String :=
    match outcome.result with
    | .ok a => .ok (output a)
    | .error _ => .error outcome.report
  if o.checkMethod then finish (checkMethod text label) fun _ => text
  else match o.args with
    | some args => finish (Expansion.ofItem args text label) Expansion.output
    | none => finish (Expansion.ofSource text label) Expansion.output

section Run

variable {m : Type → Type} [Monad m] [MonadExceptOf Raised m]

/-- Ends a run with a message. -/
def fail (host : Host m) (message : String) : m Nat := do
  host.warn message
  return 1

/-- A complaint of the program itself. -/
def complaint (message : String) : String :=
  "shadowgen: error: " ++ message ++ "\n"

/-- The text of a file, or why it cannot be read. -/
def readText (host : Host m) (path : Absolute) : m (Except String String) :=
  tryCatch
    (do return (decodeFile (← host.read path)).mapError Utf8.Error.message)
    fun r => if r.ofSystem then return .error r.message else throw r

/-- Whether a report is written in colour. -/
def colored (host : Host m) (color : ColorSettings) : m Bool :=
  match color.decided? with
  | some decided => return decided
  | none => host.terminal

/-- Hands the output over. -/
def deliver (host : Host m) (o : Options) (output : String) : m Nat := do
  match o.output with
  | some path => host.store (.of path) output
  | none => host.print output
  return 0

/-- What is done with the text of the file. -/
def process (host : Host m) (color : ColorSettings) (o : Options) (text : String) : m Nat :=
  match perform o text with
  | .ok output => deliver host o output
  | .error report => do
    let color ← colored host color
    fail host (report.render color)

/-- A run with options. -/
def runWith (host : Host m) (color : ColorSettings) (o : Options) : m Nat := do
  let path ← host.resolve (.of o.file)
  if !(← host.present path) then
    fail host (complaint ("file not found: " ++ path.print))
  else if !(← host.isFile path) then
    fail host (complaint ("not a file: " ++ path.print))
  else match ← readText host path with
    | .error message => fail host (complaint ("could not read file: " ++ message))
    | .ok text => process host color o text

/-- What a command line comes to: a run with its exit status, unless the arguments come to none. -/
def run (host : Host m) (color : ColorSettings) (argv : List String) : Except Stop (m Nat) :=
  (Options.parse argv).map (runWith host color)

end Run

end ShadowImpl.CommandLine
