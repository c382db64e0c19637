import ShadowImpl.Grammar.Reading
import ShadowImpl.Grammar.Expected

/-!
# Token trees

Method bodies, parameter lists, macro calls and attribute arguments are not looked into. All that is
asked of them is that their brackets match.
-/

namespace ShadowImpl.Grammar

open Reading

/-- Whether a token other than a bracket, a comma or a semicolon. -/
def isPlain (t : Terminal) : Bool :=
  !([.comma, .semi, .lpar, .rpar, .lsqb, .rsqb, .lbrace, .rbrace, .eof, .unknown] :
    List Terminal).contains t

/-- The bracket that closes `t`, if `t` opens a group. -/
def closer? : Terminal → Option Terminal
  | .lpar => some .rpar
  | .lsqb => some .rsqb
  | .lbrace => some .rbrace
  | _ => none

/-- What may stand at the top of a run of trees: plain tokens, and the separators given. -/
def admits (separators : List Terminal) (t : Terminal) : Bool :=
  isPlain t || separators.contains t

mutual

/-- A bracketed group. -/
def group : Nat → Reading Unit
  | 0 => refuse
  | n + 1 => do
    match closer? (← peek) with
    | none => refuse
    | some close =>
      let _ ← shift Expected.anything
      trees [.comma, .semi] n
      let _ ← token close Expected.anything

/-- Tokens and groups as far as they go. -/
def trees (separators : List Terminal) : Nat → Reading Unit
  | 0 => refuse
  | n + 1 => do
    let t ← peek
    if (closer? t).isSome then
      group n
      trees separators n
    else if admits separators t then
      let _ ← shift Expected.anything
      trees separators n
    else return ()

end

/-- Trees as far as they go, but at least one. -/
def someTrees (separators : List Terminal) (n : Nat) : Reading Unit := do
  let t ← peek
  if (closer? t).isSome || admits separators t then trees separators n else refuse

end ShadowImpl.Grammar
