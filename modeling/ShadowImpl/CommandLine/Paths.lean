import ShadowImpl.Text.Basic

/-!
# Paths

Paths as they are written, and where they lead if every name in them is the name of a directory.
-/

namespace ShadowImpl.CommandLine

/-- A path as it is written. `root` is empty for a path that starts where the program runs. -/
structure PathName where
  root : String
  names : List String
deriving DecidableEq, Repr

/-- The parts of a text between slashes. -/
def splitSlashes : List Char → List (List Char)
  | [] => [[]]
  | c :: r =>
    if c = '/' then [] :: splitSlashes r
    else match splitSlashes r with
      | [] => [[c]]
      | part :: parts => (c :: part) :: parts

namespace PathName

/-- Reads a path; empty names and single dots are dropped. Exactly two slashes in front are kept as
they are. -/
def of (text : String) : PathName :=
  let root := match text.toList with
    | '/' :: '/' :: '/' :: _ => "/"
    | '/' :: '/' :: _ => "//"
    | '/' :: _ => "/"
    | _ => ""
  ⟨root, ((splitSlashes text.toList).map String.ofList).filter fun n => n ≠ "" && n ≠ "."⟩

/-- The path in one spelling. -/
def print (p : PathName) : String :=
  if p.root = "" && p.names.isEmpty then "." else p.root ++ Text.join "/" p.names

end PathName

/-- An absolute path: the names from the root on. -/
abbrev Absolute := List String

/-- The path in one spelling. -/
def Absolute.print (p : Absolute) : String :=
  "/" ++ Text.join "/" p

/-- Follows names from a directory; `..` leads back, but not beyond the root. -/
def descend (start : Absolute) (names : List String) : Absolute :=
  names.foldl (fun path name => if name = ".." then path.dropLast else path ++ [name]) start

/-- Where a path leads from the directory `cwd`. -/
def PathName.resolve (cwd : Absolute) (p : PathName) : Absolute :=
  descend (if p.root = "" then cwd else []) p.names

end ShadowImpl.CommandLine
