/-!
# Styled text

Output is laid out as pieces of text with a style each. Colour is added when the pieces are written,
so it never changes the layout.
-/

namespace ShadowImpl

/-- What a piece of output is. -/
inductive Style where
  | plain
  | error
  | strong
  | frame
  | margin
deriving DecidableEq, Repr

/-- The escape sequences that switch a style on: bold, then the colour. -/
def Style.codes : Style → String
  | plain => ""
  | error => "\x1b[1m\x1b[31m"
  | strong => "\x1b[1m"
  | frame => "\x1b[1m\x1b[34m"
  | margin => "\x1b[1m\x1b[36m"

/-- The escape sequence that ends every style. -/
def Style.reset : String := "\x1b[0m"

/-- A text in one style. -/
structure Piece where
  style : Style
  text : String
deriving DecidableEq, Repr

/-- The piece as text, with its escape sequences if there is to be colour. -/
def Piece.write (color : Bool) (p : Piece) : String :=
  if color && p.style ≠ .plain then p.style.codes ++ p.text ++ Style.reset else p.text

/-- A line of output. -/
abbrev Line := List Piece

/-- The pieces of a line one after the other. -/
def Line.write (color : Bool) (l : Line) : String :=
  String.join (l.map (Piece.write color))

/-- What decides on colour: a setting that forbids it, and one that forces it either way. -/
structure ColorSettings where
  noColor : Option String := none
  choice : Option String := none
deriving DecidableEq, Repr

/-- What the settings decide by themselves. A forbidding setting wins, then a choice
that is understood. -/
def ColorSettings.decided? (s : ColorSettings) : Option Bool :=
  let choice := (s.choice.getD "").toLower
  if s.noColor.getD "" ≠ "" then some false
  else if ["0", "false", "no", "never"].contains choice then some false
  else if ["1", "true", "yes", "always"].contains choice then some true
  else none

/-- Where the settings leave it open, it depends on whether the output goes to a terminal. -/
def ColorSettings.enabled (s : ColorSettings) (terminal : Bool) : Bool :=
  s.decided?.getD terminal

end ShadowImpl
