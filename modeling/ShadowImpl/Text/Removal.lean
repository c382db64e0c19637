import ShadowImpl.Text.Blank
import ShadowImpl.Text.Region

/-!
# Removing an attribute from a text

An attribute that stands alone on its line takes the line with it; any other takes the spaces and
tabs after it.
-/

namespace ShadowImpl.Text

/-- A character that is removed with the attribute before it. -/
def isTrailing (c : Char) : Bool :=
  c == ' ' || c == '\t'

/-- What stands on the last line of a text. -/
def lastLine (text : List Char) : List Char :=
  (text.reverse.takeWhile (· ≠ '\n')).reverse

/-- The text up to the start of its last line. -/
def beforeLastLine (text : List Char) : List Char :=
  (text.reverse.dropWhile (· ≠ '\n')).reverse

/-- Whether a text is over, or its line is. -/
def endsLine : List Char → Bool
  | [] => true
  | c :: _ => c == '\n'

/-- Removes the attribute between the two offsets. -/
def removeAttribute (text : List Char) (start stop : Nat) : List Char :=
  let before := text.take start
  let after := (text.drop stop).dropWhile isTrailing
  if allBlank (lastLine before) && endsLine after then
    beforeLastLine before ++ after.drop 1
  else before ++ after

/-- Removes the attribute between two bounds, which count back from the end of the text if they are
negative. What is skipped after a stop that counts back may run over the end and goes on at the
start of the text. -/
def removeBetween (text : List Char) (start stop : Int) : List Char :=
  let first := bound text.length start
  if 0 ≤ stop then removeAttribute text first stop.toNat
  else
    let before := text.take first
    -- Counting back, the skip may run over the end and starts over.
    let ahead := text.drop (bound text.length stop) ++ text
    let next := stop + (ahead.takeWhile isTrailing).length
    if allBlank (lastLine before) && endsLine (ahead.dropWhile isTrailing) then
      beforeLastLine before ++ text.drop (bound text.length (next + 1))
    else before ++ text.drop (bound text.length next)

end ShadowImpl.Text
