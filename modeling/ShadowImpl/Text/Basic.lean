/-!
# Texts

Joining parts, cutting a text into lines and writing numbers.
-/

namespace ShadowImpl.Text

/-- The parts, with `sep` between each two of them. -/
def join (sep : String) : List String → String
  | [] => ""
  | [s] => s
  | s :: t :: r => s ++ sep ++ join sep (t :: r)

/-- The lines of a text: what stands between its line feeds. -/
def lines : List Char → List (List Char)
  | [] => [[]]
  | c :: r =>
    if c = '\n' then [] :: lines r
    else match lines r with
      | [] => [[c]]
      | l :: ls => (c :: l) :: ls

/-- The decimal digits of `n`, with a minus sign in front of a negative number. -/
def decimal : Int → String
  | .ofNat n => n.repr
  | .negSucc n => "-" ++ (n + 1).repr

end ShadowImpl.Text
