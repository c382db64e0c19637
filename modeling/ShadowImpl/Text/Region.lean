/-!
# Regions of a text

A region is given by two bounds. A bound that is negative counts back from the end of the text, and
every bound is moved into the text before it is used. `mask` blanks what lies outside of a region
and keeps the line feeds, so that every place keeps its line and its column.
-/

namespace ShadowImpl.Text

/-- The offset that a bound stands for in a text of `length` characters. -/
def bound (length : Nat) (i : Int) : Nat :=
  if i < 0 then (length + i).toNat else min i.toNat length

/-- The characters from `start` up to `stop`; none if the bounds are crossed. -/
def slice (text : List Char) (start stop : Int) : List Char :=
  let a := bound text.length start
  let b := bound text.length stop
  (text.take b).drop a

/-- A space for every character but a line feed. -/
def blank (text : List Char) : List Char :=
  text.map fun c => if c = '\n' then '\n' else ' '

/-- Blanks what lies before `start` and what lies from `stop` on. -/
def mask (text : List Char) (start stop : Int) : List Char :=
  blank (text.take (bound text.length start)) ++ slice text start stop ++
    blank (text.drop (bound text.length stop))

end ShadowImpl.Text
