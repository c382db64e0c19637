import ShadowImpl.Text.Basic

/-!
# Places in a text

Offsets count characters from the start of the text. A `Position` names the same place by line and
column, both counted from one; only a line feed ends a line. A `Location` is what a diagnostic
points at: a file and the range between two places.
-/

namespace ShadowImpl

/-- A line and a column, both counted from one. -/
structure Position where
  line : Nat
  column : Nat
deriving DecidableEq, Repr

/-- The position of the character at `offset`. -/
def Position.of (text : List Char) (offset : Nat) : Position :=
  let before := text.take offset
  ⟨before.count '\n' + 1, (before.reverse.takeWhile (· ≠ '\n')).length + 1⟩

/-- A range in a file. `start` and `stop` are offsets, `stop` the first one past the range. Numbers
that callers make up may be negative. -/
structure Location where
  file : String
  line : Int
  column : Int
  start : Int := 0
  stop : Int := 0
  endLine : Int := 0
  endColumn : Int := 0
deriving DecidableEq, Repr

namespace Location

/-- The range from `start` up to `stop` of a text. -/
def range (file : String) (text : List Char) (start stop : Nat) : Location :=
  let first := Position.of text start
  let last := Position.of text stop
  ⟨file, first.line, first.column, start, stop, last.line, last.column⟩

/-- The single character at `offset`, which is first moved into the text if it lies outside. -/
def point (file : String) (text : List Char) (offset : Int) : Location :=
  let o := min offset.toNat text.length
  let p := Position.of text o
  ⟨file, p.line, p.column, o, o + 1, p.line, p.column + 1⟩

/-- The file and where the range starts. -/
def print (l : Location) : String :=
  l.file ++ ":" ++ Text.decimal l.line ++ ":" ++ Text.decimal l.column

end Location
end ShadowImpl
