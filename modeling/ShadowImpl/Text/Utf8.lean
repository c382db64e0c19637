import ShadowImpl.Text.Basic

/-!
# Decoding UTF-8

Only the shortest form of each scalar value is accepted. An error names the bytes from the first of
the faulty sequence up to the one that cannot continue it.
-/

namespace ShadowImpl.Utf8

/-- Why bytes cannot be decoded. -/
inductive Reason where
  | invalidStart
  | invalidContinuation
  | unexpectedEnd
deriving DecidableEq, Repr

/-- A faulty sequence: its first byte, its place and its length. -/
structure Error where
  reason : Reason
  byte : UInt8
  position : Nat
  length : Nat
deriving DecidableEq, Repr

/-- Whether a byte can stand in a sequence after its first byte. -/
def isContinuation (b : UInt8) : Bool :=
  0x80 ≤ b && b < 0xC0

/-- The number of bytes that follow a first byte, and the range of the one right after it; `none` if
no sequence starts so. The ranges leave out long forms, surrogates and what lies past the last
scalar value. -/
def shape (b : UInt8) : Option (Nat × UInt8 × UInt8) :=
  if b < 0x80 then some (0, 0, 0)
  else if b < 0xC2 then none
  else if b < 0xE0 then some (1, 0x80, 0xBF)
  else if b = 0xE0 then some (2, 0xA0, 0xBF)
  else if b = 0xED then some (2, 0x80, 0x9F)
  else if b < 0xF0 then some (2, 0x80, 0xBF)
  else if b = 0xF0 then some (3, 0x90, 0xBF)
  else if b < 0xF4 then some (3, 0x80, 0xBF)
  else if b = 0xF4 then some (3, 0x80, 0x8F)
  else none

/-- The bits that a first byte contributes. -/
def leading (b : UInt8) (more : Nat) : Nat :=
  match more with
  | 0 => b.toNat
  | 1 => b.toNat % 32
  | 2 => b.toNat % 16
  | _ => b.toNat % 8

/-- Reads `more` bytes that continue a sequence. On failure it says how many of them could be read,
and why not all. -/
def continuation : Nat → Nat → Nat → UInt8 → UInt8 → List UInt8 →
    Except (Nat × Reason) (Nat × List UInt8)
  | 0, _, value, _, _, rest => .ok (value, rest)
  | _ + 1, seen, _, _, _, [] => .error (seen, .unexpectedEnd)
  | more + 1, seen, value, low, high, b :: rest =>
    if low ≤ b && b ≤ high then
      continuation more (seen + 1) (value * 64 + b.toNat % 64) 0x80 0xBF rest
    else .error (seen, .invalidContinuation)

/-- Decodes bytes, the first of which has the given position. The number bounds the characters. -/
def decodeFrom : Nat → Nat → List UInt8 → Except Error (List Char)
  | _, _, [] => .ok []
  | 0, _, _ => .ok []
  | n + 1, position, b :: rest =>
    match shape b with
    | none => .error ⟨.invalidStart, b, position, 1⟩
    | some (more, low, high) =>
      match continuation more 0 (leading b more) low high rest with
      -- All that could be read of the sequence is part of the error.
      | .error (seen, reason) => .error ⟨reason, b, position, seen + 1⟩
      | .ok (value, rest) =>
        (decodeFrom n (position + more + 1) rest).map (Char.ofNat value :: ·)

/-- The characters that bytes encode. -/
def decode (bytes : List UInt8) : Except Error (List Char) :=
  decodeFrom bytes.length 0 bytes

/-! ## Wording -/

/-- A reason in words. -/
def Reason.message : Reason → String
  | invalidStart => "invalid start byte"
  | invalidContinuation => "invalid continuation byte"
  | unexpectedEnd => "unexpected end of data"

/-- Two hexadecimal digits. -/
def hex (b : UInt8) : String :=
  let digit (n : Nat) : Char := "0123456789abcdef".toList.getD n '0'
  String.ofList [digit (b.toNat / 16), digit (b.toNat % 16)]

/-- The bytes that are wrong, where they are and why. -/
def Error.message (e : Error) : String :=
  "'utf-8' codec can't decode " ++
    (if e.length = 1 then "byte 0x" ++ hex e.byte ++ " in position " ++ e.position.repr
      else "bytes in position " ++ e.position.repr ++ "-" ++ (e.position + e.length - 1).repr) ++
    ": " ++ e.reason.message

end ShadowImpl.Utf8

namespace ShadowImpl.Text

/-- Line feeds in place of carriage returns, also of those before a line feed. -/
def unifyNewlines : List Char → List Char
  | '\r' :: '\n' :: r => '\n' :: unifyNewlines r
  | '\r' :: r => '\n' :: unifyNewlines r
  | c :: r => c :: unifyNewlines r
  | [] => []

end ShadowImpl.Text
