import ShadowImpl.Token.Recogniser

/-!
# The scanner

What counts as the next token depends on what the grammar expects there. The scanner tries the
classes in one fixed order and only those that are expected; comments and layout are always passed
over. Two consequences shape the language: where a name is expected, a keyword is recognised only
as a whole name and only if that keyword is expected too; where no name is expected, a keyword is
recognised by its letters alone.
-/

namespace ShadowImpl

/-- What the scanner can find at the front of a text. -/
inductive Lexeme where
  | layout
  | comment
  | terminal (t : Terminal)
deriving DecidableEq, Repr

namespace Lexeme

/-- The order in which the classes are tried. -/
def order : List Lexeme :=
  [.terminal .docComment, .terminal .rawString, .terminal .innerDoc, .comment, .terminal .string,
    .terminal .char, .terminal .number, .terminal .ident, .terminal .lifetime, .layout] ++
    Terminal.keywords.map .terminal ++
    [.terminal .pathSep, .terminal .arrow, .terminal .punct] ++
    (Terminal.symbols.drop 2).map .terminal

/-- Whether a class is tried under an expectation. Keywords leave it to the names to find them. -/
def tried (e : Expectation) : Lexeme → Bool
  | layout => true
  | comment => true
  | terminal t => e.contains t && !(e.contains .ident && Terminal.keywords.contains t)

/-- How much of the text belongs to a lexeme of this class. -/
def recognise : Lexeme → List Char → Option Nat
  | layout => Recogniser.layout
  | comment => Recogniser.comment
  | terminal t => t.recognise

/-- The first class that fits, with the length of its lexeme. -/
def first (e : Expectation) (s : List Char) : Option (Lexeme × Nat) :=
  order.findSome? fun l => if l.tried e then (l.recognise s).map (l, ·) else none

end Lexeme

/-- A name that is spelled like an expected keyword is that keyword. -/
def Terminal.ofName (e : Expectation) (name : List Char) : Terminal :=
  ((keywords.filter e.contains).find? (·.spelling = name)).getD ident

/-- A token and the text passed over in front of it. -/
structure Token where
  kind : Terminal
  gap : List Char
  text : List Char
deriving DecidableEq, Repr

/-- What stands next in a text. -/
inductive Next where
  | ended (gap : List Char)
  | token (t : Token) (rest : List Char)
  | unknown (gap : List Char) (rest : List Char)
deriving Repr

namespace Next

/-- The class of what stands next. -/
def kind : Next → Terminal
  | ended _ => .eof
  | token t _ => t.kind
  | unknown _ _ => .unknown

/-- Passes over comments and layout and reads one token. `gap` is what has been passed over. A step
takes at least one character, so a clock with one tick for each character does not run out. -/
def scan (e : Expectation) : List Char → List Char → List Char → Next
  | _, gap, [] => .ended gap
  | [], gap, s => .unknown gap s
  | _ :: clock, gap, s =>
    match Lexeme.first e s with
    | none => .unknown gap s
    -- Keywords are found here, among the names, wherever a name may stand as well.
    | some (.terminal .ident, k) =>
      .token ⟨Terminal.ofName e (s.take k), gap, s.take k⟩ (s.drop k)
    | some (.terminal t, k) => .token ⟨t, gap, s.take k⟩ (s.drop k)
    | some (_, k) => scan e clock (gap ++ s.take k) (s.drop k)

/-- What stands next in `s` under the expectation `e`. -/
def of (e : Expectation) (s : List Char) : Next :=
  scan e s [] s

end Next

/-- Every terminal that a token can have. -/
def Terminal.all : Expectation :=
  [docComment, rawString, innerDoc, string, char, number, ident, lifetime, punct] ++ keywords ++
    symbols

/-- Where a scan stands: the tokens taken so far, the latest one first, the text that is left and
what is expected of it. -/
structure Scan where
  taken : List Token
  rest : List Char
  expected : Expectation
deriving Repr

namespace Scan

/-- A scan at the start of a text. -/
def start (e : Expectation) (text : List Char) : Scan :=
  ⟨[], text, e⟩

/-- What stands next. -/
def next (s : Scan) : Next :=
  Next.of s.expected s.rest

/-- The text from the start of token number `first` to the end of the latest one. -/
def textFrom (s : Scan) (first : Nat) : List Char :=
  match (s.taken.take (s.taken.length - first)).reverse with
  | [] => []
  | t :: ts => t.text ++ ts.flatMap fun u => u.gap ++ u.text

end Scan
end ShadowImpl
