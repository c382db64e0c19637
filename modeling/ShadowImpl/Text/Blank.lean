/-!
# Blank characters

The characters that count as blank when text is trimmed or squeezed: the Unicode white space, line
and paragraph separators and the four ASCII information separators. The scanner skips a smaller
set of its own, see `Token.Recogniser`.
-/

namespace ShadowImpl.Text

/-- Whether `c` is blank. -/
def isBlank (c : Char) : Bool :=
  let n := c.toNat
  (0x09 ≤ n && n ≤ 0x0D) || (0x1C ≤ n && n ≤ 0x20) || n == 0x85 || n == 0xA0 || n == 0x1680 ||
    (0x2000 ≤ n && n ≤ 0x200A) || n == 0x2028 || n == 0x2029 || n == 0x202F || n == 0x205F ||
    n == 0x3000

/-- Drops the blanks at the end. -/
def trimEnd (s : List Char) : List Char :=
  (s.reverse.dropWhile isBlank).reverse

/-- Drops the blanks at both ends. -/
def trim (s : List Char) : List Char :=
  trimEnd (s.dropWhile isBlank)

/-- Drops every blank. -/
def squeeze (s : List Char) : List Char :=
  s.filter fun c => !isBlank c

/-- Whether nothing but blanks is written. -/
def allBlank (s : List Char) : Bool :=
  s.all isBlank

end ShadowImpl.Text
