import ShadowImpl.CommandLine.Program

/-!
# The executable

The calls of a run, carried out by the system that the executable runs on.
-/

namespace ShadowImpl.CommandLine

/-- An error of the system as one that ends a run. -/
def Raised.ofIO (e : IO.Error) : Raised :=
  { name := "OSError", message := toString e }

/-- An action of the system as a call of a run. -/
def call {α : Type} (action : IO α) : EIO Raised α :=
  action.toEIO Raised.ofIO

/-- What is at a path, if there is anything. -/
def metadata? (path : Absolute) : IO (Option IO.FS.Metadata) := do
  match ← ((← IO.currentDir) / path.print).metadata.toBaseIO with
  | .ok data => return some data
  | .error (.noFileOrDirectory ..) | .error (.inappropriateType ..) => return none
  | .error e => throw e

/-- The system that the executable runs on. -/
def localHost : Host (EIO Raised) where
  resolve p := call do
    try return (PathName.of (← IO.FS.realPath p.print).toString).names
    catch _ => return p.resolve (PathName.of (← IO.currentDir).toString).names
  present path := call do return (← metadata? path).isSome
  isFile path := call do return (← metadata? path).any (·.type matches .file)
  read path := call do return (← IO.FS.readBinFile path.print).toList
  terminal := call do (← IO.getStderr).isTty
  store p text := call (IO.FS.writeFile p.print text)
  print text := call do (← IO.getStdout).putStr text
  warn text := call do (← IO.getStderr).putStr text

/-- The text that is shown when the arguments cannot be used. -/
def usage : String :=
  "usage: shadowgen [-h] [--args ARGS] [--check-method] [-o OUTPUT] file\n"

/-- Shows why there is no run. -/
def Stop.explain (s : Stop) : IO UInt32 := do
  let stream ← match s with
    | help => IO.getStdout
    | usage => IO.getStderr
  stream.putStr CommandLine.usage
  return s.status.toUInt32

end ShadowImpl.CommandLine

open ShadowImpl.CommandLine in
def main (argv : List String) : IO UInt32 := do
  let color := ⟨← IO.getEnv "NO_COLOR", ← IO.getEnv "SHADOWGEN_COLOR"⟩
  match run localHost color argv with
  | .error stop => stop.explain
  | .ok started =>
    match ← started.toBaseIO with
    | .ok status => return status.toUInt32
    | .error raised =>
      (← IO.getStderr).putStr (raised.report ++ "\n")
      return 1
