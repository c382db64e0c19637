import ShadowImpl.Fault

/-!
# Diagnostics

A problem is a fault as its user is told of it; a diagnostic is what is written for it.
-/

namespace ShadowImpl

/-- A fault in words. -/
structure Problem where
  category : Category
  message : String
  location : Option Location := none
  help : Option String := none
  label : Option String := none
deriving DecidableEq, Repr

/-- The words for a fault. -/
def Fault.problem (f : Fault) : Problem :=
  ⟨f.cause.category, f.cause.message, f.location, some f.cause.help, f.cause.label⟩

/-- A problem in one line, and a second one for its place. -/
def Problem.summary (p : Problem) : String :=
  "error[" ++ p.category.code ++ "]: " ++ p.message ++
    match p.location with
    | some l => "\n --> " ++ l.print
    | none => ""

/-- One reported error. An empty code, help, note or label counts as none. -/
structure Diagnostic where
  message : String
  location : Option Location
  code : Option String := none
  help : Option String := none
  note : Option String := none
  label : Option String := none
deriving DecidableEq, Repr

/-- The diagnostic that is written for a problem. -/
def Problem.diagnostic (p : Problem) : Diagnostic :=
  ⟨p.message, p.location, some p.category.code, p.help, none, p.label⟩

/-- The texts that diagnostics point into, by file. -/
abbrev Sources := List (String × String)

/-- Sets the text of a file. -/
def Sources.set (s : Sources) (file text : String) : Sources :=
  (file, text) :: s.filter (·.1 ≠ file)

end ShadowImpl
