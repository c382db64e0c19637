import ShadowImpl.Token.Scanner

/-!
# Readings

A reading is a plan for reading tokens: it looks at the class of the next token, takes it and says
what is expected after it, and in the end yields a value or refuses the token that stands next. It
sees no offsets. Where it has to remember a place it counts the tokens taken, and where it keeps
source text it asks for the text from one of those tokens on. So what a reading yields depends on
the tokens and on the text between them, and never on where in a file they stand.
-/

namespace ShadowImpl

/-- A plan for reading tokens that yields an `α`. -/
inductive Reading (α : Type) where
  /-- Yields a value. -/
  | done (a : α)
  /-- Refuses what stands next. -/
  | refuse
  /-- Looks at the class of the next token. -/
  | look (k : Terminal → Reading α)
  /-- Takes the next token, after which `e` is expected. -/
  | take (e : Expectation) (k : String → Reading α)
  /-- Asks how many tokens have been taken. -/
  | count (k : Nat → Reading α)
  /-- Asks for the text from token number `first` on. -/
  | text (first : Nat) (k : String → Reading α)

namespace Reading

/-- Goes on with what a reading yields. -/
protected def bind {α β : Type} : Reading α → (α → Reading β) → Reading β
  | done a, f => f a
  | refuse, _ => refuse
  | look k, f => look fun t => (k t).bind f
  | take e k, f => take e fun s => (k s).bind f
  | count k, f => count fun n => (k n).bind f
  | text i k, f => text i fun s => (k s).bind f

instance : Monad Reading where
  pure := done
  bind := Reading.bind

/-- Follows a reading through a scan. A reading that refuses leaves the scan as it was there. -/
def run {α : Type} : Reading α → Scan → Except Scan (α × Scan)
  | done a, s => .ok (a, s)
  | refuse, s => .error s
  | look k, s => (k s.next.kind).run s
  | take e k, s =>
    match s.next with
    | .token t rest => (k (String.ofList t.text)).run ⟨t :: s.taken, rest, e⟩
    | _ => .error s
  | count k, s => (k s.taken.length).run s
  | text i k, s => (k (String.ofList (s.textFrom i))).run s

/-! ## Single tokens -/

/-- The class of the next token. -/
def peek : Reading Terminal :=
  look done

/-- Takes the next token, whatever it is. -/
def shift (e : Expectation) : Reading String :=
  take e done

/-- Takes a token of class `t`. -/
def token (t : Terminal) (e : Expectation) : Reading String := do
  if (← peek) = t then shift e else refuse

/-- Whether the next token is of class `t`; if so it is taken. -/
def optional (t : Terminal) (e : Expectation) : Reading Bool := do
  if (← peek) = t then
    let _ ← shift e
    return true
  else return false

/-- The number of tokens taken so far. -/
def mark : Reading Nat :=
  count done

/-- The text from token number `first` to the latest one. -/
def textFrom (first : Nat) : Reading String :=
  text first done

/-- Refuses anything but the end of the text. -/
def finish : Reading Unit := do
  if (← peek) = .eof then return () else refuse

/-! ## Lists -/

/-- Elements with commas between them, up to and with the token `close`; a comma may stand before
it. The number bounds how many elements are read. -/
def commaList {α : Type} (close : Terminal) (afterComma afterClose : Expectation)
    (element : Reading α) : Nat → Reading (List α)
  | 0 => refuse
  | n + 1 => do
    if ← optional close afterClose then return []
    let x ← element
    if ← optional .comma afterComma then
      return x :: (← commaList close afterComma afterClose element n)
    let _ ← token close afterClose
    return [x]

/-- Elements with plus signs between them, at least one. -/
def plusList {α : Type} (afterPlus : Expectation) (element : Reading α) : Nat → Reading (List α)
  | 0 => refuse
  | n + 1 => do
    let x ← element
    if ← optional .plus afterPlus then
      return x :: (← plusList afterPlus element n)
    return [x]

/-- Elements with commas between them as long as `starts` holds of the next token; a comma may stand
after the last one. -/
def openList {α : Type} (starts : Terminal → Bool) (afterComma : Expectation)
    (element : Reading α) : Nat → Reading (List α)
  | 0 => refuse
  | n + 1 => do
    if starts (← peek) then
      let x ← element
      if ← optional .comma afterComma then
        return x :: (← openList starts afterComma element n)
      return [x]
    else return []

end Reading
end ShadowImpl
