import ShadowImpl.CommandLine.Paths

/-!
# The host of a run

All that a run asks of the system around it, and all that it has it do. What the answers are is up
to the host, and any of its calls may raise an error.
-/

namespace ShadowImpl.CommandLine

/-- An error that ends a run unless it is caught. -/
structure Raised where
  /-- The name of its class. -/
  name : String
  message : String
  /-- Whether its class is one of those for errors of the operating system. -/
  ofSystem : Bool := true
deriving DecidableEq, Repr

/-- The last line that is shown of an error that nobody catches. -/
def Raised.report (r : Raised) : String :=
  r.name ++ ": " ++ r.message

/-- The calls of a run. -/
structure Host (m : Type → Type) where
  /-- Where a path leads. -/
  resolve : PathName → m Absolute
  /-- Whether something is there. -/
  present : Absolute → m Bool
  /-- Whether that is a file. -/
  isFile : Absolute → m Bool
  /-- What is in a file. -/
  read : Absolute → m (List UInt8)
  /-- Whether the standard error is shown on a terminal. -/
  terminal : m Bool
  /-- Makes a text the content of a file. -/
  store : PathName → String → m Unit
  /-- Writes a text to the standard output. -/
  print : String → m Unit
  /-- Writes a text to the standard error. -/
  warn : String → m Unit

end ShadowImpl.CommandLine
