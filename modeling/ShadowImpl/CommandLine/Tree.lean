import ShadowImpl.CommandLine.Host

/-!
# A tree of files

A host that keeps everything in one value: directories and plain files, all of which can be read and
written, and what has been written to the standard streams. There are no links in it.
-/

namespace ShadowImpl.CommandLine

/-- What a path can lead to. -/
inductive Entry where
  | file (bytes : List UInt8)
  | directory
deriving DecidableEq, Repr

/-- Directories and files, the directory where the program runs, and the standard streams. -/
structure Tree where
  cwd : Absolute
  entries : List (Absolute × Entry)
  stdout : String := ""
  stderr : String := ""
deriving DecidableEq, Repr

/-- Why a file cannot be opened. -/
inductive Refusal where
  | missing
  | notDirectory
  | directory
deriving DecidableEq, Repr

/-- The error that a refusal is raised as. -/
def Refusal.raised (r : Refusal) (path : String) : Raised :=
  let (name, text) := match r with
    | missing => ("FileNotFoundError", "[Errno 2] No such file or directory")
    | notDirectory => ("NotADirectoryError", "[Errno 20] Not a directory")
    | directory => ("IsADirectoryError", "[Errno 21] Is a directory")
  { name, message := text ++ ": '" ++ path ++ "'" }

namespace Tree

/-- What is at a path. What leads to an entry is a directory. -/
def find? (t : Tree) (path : Absolute) : Option Entry :=
  match t.entries.lookup path with
  | some e => some e
  | none =>
    if t.entries.any fun (p, _) => path.isPrefixOf p && path ≠ p then some .directory else none

/-- What is in the file at a path. -/
def bytes? (t : Tree) (path : Absolute) : Option (List UInt8) :=
  match t.find? path with
  | some (.file bytes) => some bytes
  | _ => none

/-- Goes on from a path into what should be a directory there. -/
def enter (t : Tree) (path : Absolute) : Except Refusal Unit :=
  match t.find? path with
  | some .directory => .ok ()
  | some (.file _) => .error .notDirectory
  | none => .error .missing

/-- Follows the names one by one. All but the last have to lead to directories. -/
def follow (t : Tree) : Absolute → List String → Except Refusal Absolute
  | here, [] => .ok here
  | here, name :: names => do
    let next := if name = ".." then here.dropLast else here ++ [name]
    if names.isEmpty then return next
    t.enter next
    t.follow next names

/-- Opens a path for writing: where the file will be. -/
def openNew (t : Tree) (p : PathName) : Except Refusal Absolute := do
  let target ← t.follow (if p.root = "" then t.cwd else []) p.names
  match t.find? target with
  | some .directory => .error .directory
  | some (.file _) => return target
  | none =>
    -- A new file needs its directory.
    t.enter target.dropLast
    return target

/-- Makes a text the content of the file at a path. -/
def put (t : Tree) (path : Absolute) (text : String) : Tree :=
  { t with entries := (path, .file text.toUTF8.toList) :: t.entries.filter (·.1 ≠ path) }

/-- A tree as the host of a run. -/
def host : Host (EStateM Raised Tree) where
  resolve p := return p.resolve (← get).cwd
  present path := return ((← get).find? path).isSome
  isFile path := return ((← get).bytes? path).isSome
  read path := do
    match (← get).bytes? path with
    | some bytes => return bytes
    | none => throw (Refusal.directory.raised path.print)
  terminal := return false
  store p text := do
    match (← get).openNew p with
    | .ok target => modify (·.put target text)
    | .error refusal => throw (refusal.raised p.print)
  print text := modify fun t => { t with stdout := t.stdout ++ text }
  warn text := modify fun t => { t with stderr := t.stderr ++ text }

end Tree

end ShadowImpl.CommandLine
