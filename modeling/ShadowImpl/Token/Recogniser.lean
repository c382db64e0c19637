import ShadowImpl.Token.Terminal

/-!
# Recognisers

A recogniser says how many characters at the front of a text form one lexeme of its class, if any
do. Each one reads as far as its class allows and never gives a part back.
-/

namespace ShadowImpl.Recogniser

/-- How many characters at the front satisfy `p`. -/
def run (p : Char → Bool) (s : List Char) : Nat :=
  (s.takeWhile p).length

/-- How many characters there are up to the end of the first `mark`. -/
def through (mark : List Char) : List Char → Option Nat
  | [] => if mark.isEmpty then some 0 else none
  | c :: r =>
    if mark.isPrefixOf (c :: r) then some mark.length else (through mark r).map (· + 1)

/-- Everything up to the end of the line. -/
def line (s : List Char) : Nat :=
  run (· ≠ '\n') s

/-! ## Names -/

def isWordStart (c : Char) : Bool :=
  c.isAlpha || c == '_'

def isWordChar (c : Char) : Bool :=
  c.isAlphanum || c == '_'

/-- A plain name: a letter or an underscore, then letters, digits and underscores. -/
def word : List Char → Option Nat
  | c :: r => if isWordStart c then some (1 + run isWordChar r) else none
  | [] => none

/-- A name, which may be written raw with `r#` in front. -/
def ident : List Char → Option Nat
  | 'r' :: '#' :: r =>
    match word r with
    | some n => some (n + 2)
    | none => word ('r' :: '#' :: r)
  | s => word s

/-- An apostrophe and a plain name. -/
def lifetime : List Char → Option Nat
  | '\'' :: r => (word r).map (· + 1)
  | _ => none

/-! ## Literals -/

/-- A character of a number after its first digit. -/
def isDigitOrGap (c : Char) : Bool :=
  c.isDigit || c == '_'

def isHexOrGap (c : Char) : Bool :=
  isDigitOrGap c || ('a' ≤ c && c ≤ 'f') || ('A' ≤ c && c ≤ 'F')

def isOctalOrGap (c : Char) : Bool :=
  ('0' ≤ c && c ≤ '7') || c == '_'

def isBinaryOrGap (c : Char) : Bool :=
  c == '0' || c == '1' || c == '_'

/-- At least one character that satisfies `p`. -/
def some1 (p : Char → Bool) (s : List Char) : Option Nat :=
  if run p s = 0 then none else some (run p s)

/-- A fraction: a point and at least one digit. -/
def fraction : List Char → Nat
  | '.' :: c :: r => if c.isDigit then 2 + run isDigitOrGap r else 0
  | _ => 0

/-- An exponent: its mark, a sign if one is written, and at least one digit or gap. -/
def exponent : List Char → Nat
  | c :: r =>
    if c == 'e' || c == 'E' then
      match r with
      | d :: r' =>
        if d == '+' || d == '-' then
          if run isDigitOrGap r' = 0 then 0 else 2 + run isDigitOrGap r'
        else if run isDigitOrGap r = 0 then 0 else 1 + run isDigitOrGap r
      | [] => 0
    else 0
  | [] => 0

/-- A whole number in decimal, with fraction and exponent. -/
def decimal : List Char → Option Nat
  | c :: r =>
    if c.isDigit then
      let whole := 1 + run isDigitOrGap r
      let withFraction := whole + fraction ((c :: r).drop whole)
      some (withFraction + exponent ((c :: r).drop withFraction))
    else none
  | [] => none

/-- The digits of a number, whose base may be marked in front. -/
def digits : List Char → Option Nat
  -- A mark with nothing behind it is the number zero with a suffix.
  | '0' :: 'x' :: r => ((some1 isHexOrGap r).map (· + 2)).or (decimal ('0' :: 'x' :: r))
  | '0' :: 'o' :: r => ((some1 isOctalOrGap r).map (· + 2)).or (decimal ('0' :: 'o' :: r))
  | '0' :: 'b' :: r => ((some1 isBinaryOrGap r).map (· + 2)).or (decimal ('0' :: 'b' :: r))
  | s => decimal s

/-- A suffix such as `u8`. -/
def suffix : List Char → Nat
  | c :: r => if c.isAlpha then 1 + run isWordChar r else 0
  | [] => 0

/-- A number: digits and a suffix. -/
def number (s : List Char) : Option Nat :=
  (digits s).map fun n => n + suffix (s.drop n)

/-- The rest of a string after its opening quote. A backslash takes the next character with it. -/
def stringRest : List Char → Option Nat
  | '"' :: _ => some 1
  | '\\' :: _ :: r => (stringRest r).map (· + 2)
  | '\\' :: [] => none
  | _ :: r => (stringRest r).map (· + 1)
  | [] => none

/-- A string in quotes, or a byte string. -/
def string : List Char → Option Nat
  | 'b' :: '"' :: r => (stringRest r).map (· + 2)
  | '"' :: r => (stringRest r).map (· + 1)
  | _ => none

/-- A raw string after its `r`: no more than two `#` on each side. -/
def rawRest : List Char → Option Nat
  | '"' :: r => (through ['"'] r).map (· + 1)
  | '#' :: '"' :: r => (through ['"', '#'] r).map (· + 2)
  | '#' :: '#' :: '"' :: r => (through ['"', '#', '#'] r).map (· + 3)
  | _ => none

/-- A raw string, or a raw byte string. -/
def rawString : List Char → Option Nat
  | 'b' :: 'r' :: r => (rawRest r).map (· + 2)
  | 'r' :: r => (rawRest r).map (· + 1)
  | _ => none

/-- The rest of a character literal after its opening quote: an escaped quote, a backslash with one
to ten characters, or a single character; then the closing quote. -/
def charRest : List Char → Option Nat
  | '\\' :: '\'' :: '\'' :: _ => some 3
  | '\\' :: r =>
    let n := run (fun c => c ≠ '\'' && c ≠ '\n') r
    if 1 ≤ n && n ≤ 10 && (r.drop n).head? == some '\'' then some (n + 2) else none
  | c :: '\'' :: _ => if c == '\'' || c == '\n' then none else some 2
  | _ => none

/-- A character literal, or a byte literal. -/
def char : List Char → Option Nat
  | 'b' :: '\'' :: r => (charRest r).map (· + 2)
  | '\'' :: r => (charRest r).map (· + 1)
  | _ => none

/-! ## Comments and blanks -/

/-- Up to the end of a block comment. -/
def blockRest (s : List Char) : Option Nat :=
  through ['*', '/'] s

/-- A comment that documents what follows it: exactly three slashes, or a block that opens with
exactly two stars. -/
def docComment : List Char → Option Nat
  | '/' :: '/' :: '/' :: r => if r.head? == some '/' then none else some (3 + line r)
  | '/' :: '*' :: '*' :: r =>
    if r.head? == some '*' || r.head? == some '/' then none else (blockRest r).map (· + 3)
  | _ => none

/-- A comment that documents what it stands in. -/
def innerDoc : List Char → Option Nat
  | '/' :: '/' :: '!' :: r => some (3 + line r)
  | '/' :: '*' :: '!' :: r => (blockRest r).map (· + 3)
  | _ => none

/-- Any comment. Block comments do not nest. -/
def comment : List Char → Option Nat
  | '/' :: '/' :: r => some (2 + line r)
  | '/' :: '*' :: r => (blockRest r).map (· + 2)
  | _ => none

/-- A character that parts tokens. -/
def isLayout (c : Char) : Bool :=
  c == ' ' || c == '\t' || c == '\x0c' || c == '\r' || c == '\n'

/-- Spaces, tabs, form feeds and line ends. -/
def layout (s : List Char) : Option Nat :=
  some1 isLayout s

/-! ## Symbols -/

/-- One of the characters without a meaning to the grammar. -/
def punct : List Char → Option Nat
  | c :: _ => if ['.', '/', '%', '^', '|', '@', '$', '~'].contains c then some 1 else none
  | [] => none

/-- Exactly the text `w`. -/
def exactly (w s : List Char) : Option Nat :=
  if w.isPrefixOf s then some w.length else none

end ShadowImpl.Recogniser

namespace ShadowImpl

/-- The recogniser of a class. -/
def Terminal.recognise : Terminal → List Char → Option Nat
  | docComment => Recogniser.docComment
  | rawString => Recogniser.rawString
  | innerDoc => Recogniser.innerDoc
  | string => Recogniser.string
  | char => Recogniser.char
  | number => Recogniser.number
  | ident => Recogniser.ident
  | lifetime => Recogniser.lifetime
  | punct => Recogniser.punct
  | eof => fun _ => none
  | unknown => fun _ => none
  | t => Recogniser.exactly t.spelling

end ShadowImpl
