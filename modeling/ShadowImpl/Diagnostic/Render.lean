import ShadowImpl.Diagnostic.Basic
import ShadowImpl.Diagnostic.Style
import ShadowImpl.Text.Blank

/-!
# Rendering diagnostics

    error[E0102]: unsupported self type `(A, B)`
     --> lib.rs:2:6
      |
    2 | impl (A, B) ..
      |      ^^^^^^ expected a path type
      |
      = help: implement the shadow type for a named type

All lines of a range are shown, and the first of them is underlined.
-/

namespace ShadowImpl

/-- Ends a token when the width of a range has to be guessed. -/
def endsToken (c : Char) : Bool :=
  Text.isBlank c || [',', ';', '(', ')', '[', ']', '\x7b', '\x7d', '<', '>'].contains c

/-- The width of the token that starts at a column, at least one. -/
def tokenWidth (line : List Char) (column : Nat) : Nat :=
  max 1 ((line.drop column).takeWhile fun c => !endsToken c).length

/-- The text, if it is not empty. -/
def nonempty? (text : Option String) : Option String :=
  text.filter (· ≠ "")

/-- `n` times the character `c`. -/
def rule (n : Nat) (c : Char) : String :=
  String.ofList (List.replicate n c)

namespace Location

/-- The last line that is shown of a text with `count` lines. -/
def lastLine (l : Location) (count : Nat) : Int :=
  if l.endLine > l.line then min l.endLine (max count l.line) else l.line

/-- How many columns are skipped before the underline. -/
def indent (l : Location) : Nat :=
  (max l.column 1 - 1).toNat

/-- How far the underline goes on the first line of the range. -/
def width (l : Location) (line : List Char) : Nat :=
  -- The underline of a range over several lines ends with its first line.
  if l.endLine > l.line then max 1 ((Text.trimEnd line).length - l.indent)
  else if l.endColumn > l.column then (l.endColumn - l.column).toNat
  else tokenWidth line l.indent

end Location

namespace Diagnostic

/-- The code and the message. -/
def headline (d : Diagnostic) : Line :=
  let code := match nonempty? d.code with
    | some c => "[" ++ c ++ "]"
    | none => ""
  [⟨.error, "error" ++ code⟩, ⟨.strong, ": " ++ d.message⟩]

/-- The underline and the label. -/
def underline (d : Diagnostic) (l : Location) (line : List Char) : String :=
  rule l.indent ' ' ++ rule (l.width line) '^' ++
    match nonempty? d.label with
    | some label => " " ++ label
    | none => ""

/-- A source line behind its number, which is set to the right in the gutter. -/
def numbered (gutter : Nat) (number : Nat) (line : List Char) : Line :=
  let digits := number.repr
  [⟨.frame, rule (gutter - digits.length) ' ' ++ digits ++ " | "⟩, ⟨.plain, String.ofList line⟩]

/-- The lines of the range from `first` on, with the underline below the first of them. -/
def excerpt (d : Diagnostic) (l : Location) (lines : List (List Char)) (gutter : Nat) :
    List Line :=
  let first := l.line.toNat
  let count := (l.lastLine lines.length - l.line).toNat + 1
  match (lines.drop (first - 1)).take count with
  | [] => []
  | line :: more =>
    [⟨.frame, rule gutter ' ' ++ " |"⟩] ::
      numbered gutter first line ::
      [⟨.frame, rule gutter ' ' ++ " | "⟩, ⟨.error, d.underline l line⟩] ::
      more.mapIdx fun i line => numbered gutter (first + 1 + i) line

/-- Help and note. -/
def remarks (d : Diagnostic) (gutter : Nat) : List Line :=
  let remark (kind : String) (body : Option String) : List Line :=
    match nonempty? body with
    | none => []
    | some text =>
      [[⟨.margin, rule gutter ' ' ++ " = "⟩, ⟨.strong, kind ++ ": "⟩, ⟨.plain, text⟩]]
  match remark "help" d.help ++ remark "note" d.note with
  | [] => []
  | lines => [⟨.frame, rule gutter ' ' ++ " |"⟩] :: lines

/-- The lines of a diagnostic. The gutter is as wide as the largest line number. -/
def layout (d : Diagnostic) (sources : Sources) : List Line :=
  match d.location with
  | none =>
    d.headline :: [⟨.frame, " --> "⟩, ⟨.plain, "<unknown location>"⟩] :: d.remarks 1
  | some l =>
    let lines := (sources.lookup l.file).map fun text => Text.lines text.toList
    -- Without its text the range counts as its first line alone.
    let gutter := (Text.decimal (l.lastLine (lines.getD []).length)).length
    d.headline :: [⟨.frame, rule gutter ' ' ++ "--> "⟩, ⟨.plain, l.print⟩] ::
      (match lines with
        | some lines =>
          if 0 < l.line ∧ l.line ≤ lines.length then d.excerpt l lines gutter else []
        | none => []) ++
      d.remarks gutter

/-- The diagnostic as text. -/
def render (d : Diagnostic) (sources : Sources) (color : Bool) : String :=
  Text.join "\n" ((d.layout sources).map (Line.write color))

end Diagnostic

/-- The diagnostics of one run and the texts that they point into. -/
structure Report where
  sources : Sources
  diagnostics : List Diagnostic := []
deriving DecidableEq, Repr

namespace Report

/-- Appends a diagnostic. -/
def add (r : Report) (d : Diagnostic) : Report :=
  { r with diagnostics := r.diagnostics ++ [d] }

/-- Whether anything was reported. -/
def hasErrors (r : Report) : Bool :=
  !r.diagnostics.isEmpty

/-- The last line of a report. -/
def conclusion (r : Report) : Line :=
  let count := r.diagnostics.length
  [⟨.error, "error"⟩, ⟨.strong, ": aborting due to " ++ count.repr ++ " previous error" ++
    if count = 1 then "" else "s"⟩]

/-- All diagnostics and the conclusion, with blank lines between them. -/
def render (r : Report) (color : Bool) : String :=
  Text.join "\n\n" (r.diagnostics.map (·.render r.sources color) ++ [r.conclusion.write color]) ++
    "\n"

end Report
end ShadowImpl
